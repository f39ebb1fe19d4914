import DotModel.Document.Text
import DotModel.Proofs.Document.Quoting

/-!
# Printed documents are read back

The text of a document is read as the document's own tokens, whatever its identifiers and ports
contain and however deep it is nested.  Each part of the printing is followed by a character that
ends a bare word, so no identifier runs into what stands behind it, and the only bare keywords are
those of the printing itself.
-/

namespace DotModel

open Token

/-! ## Parts of statements -/

theorem spells_equals : Spells "=" [.equals] := spells_punctuation_cons rfl spells_empty

theorem spells_space : Spells " " [] := spells_blank_cons rfl spells_empty

theorem spells_lineEnd : Spells ";\n" [.semicolon] :=
  spells_punctuation_cons rfl (spells_blank_cons rfl spells_empty)

theorem spells_bodyBegin : Spells " \x7b\n" [.openBrace] :=
  spells_blank_cons rfl (spells_punctuation_cons rfl (spells_blank_cons rfl spells_empty))

theorem spells_bodyEnd : Spells "\x7d\n" [.closeBrace] :=
  spells_punctuation_cons rfl (spells_blank_cons rfl spells_empty)

theorem spells_keyword {word : String} {token : Token} (h : SpellsWord word [token]) :
    Spells (word ++ " ") [token] :=
  h.append spells_space rfl rfl

theorem Ident.spellsWord_toText (id : Ident) : SpellsWord id.toText [id.token] :=
  Literal.spellsWord_quote id.text.toList

theorem Attr.spellsWord_toText (a : Attr) : SpellsWord a.toText a.tokens :=
  (a.key.spellsWord_toText.append spells_equals rfl rfl).append_word a.value.spellsWord_toText

/-- What stands between the first attribute of a list and the closing bracket. -/
theorem Attr.spells_intercalate (a : Attr) (attrs : List Attr) :
    Spells (String.intercalate ", " ((a :: attrs).map toText) ++ "]")
      (a.tokens ++ (attrs.flatMap fun b => .comma :: b.tokens) ++ [.closeBracket]) := by
  have hcomma : Spells ", " [.comma] :=
    spells_punctuation_cons rfl (spells_blank_cons rfl spells_empty)
  induction attrs generalizing a with
  | nil =>
      have hend : Spells "]" [.closeBracket] := spells_punctuation_cons rfl spells_empty
      simpa using a.spellsWord_toText.append hend rfl rfl
  | cons b rest ih =>
      have hfirst : Spells (a.toText ++ ", ") (a.tokens ++ [.comma]) :=
        a.spellsWord_toText.append hcomma rfl rfl
      simpa [String.append_assoc] using hfirst.append (ih b)

theorem Attr.spells_listToText_cons (a : Attr) (attrs : List Attr) :
    Spells (listToText (a :: attrs)) (listTokens (a :: attrs)) := by
  have hbegin : Spells " [" [.openBracket] :=
    spells_blank_cons rfl (spells_punctuation_cons rfl spells_empty)
  simpa [listToText, listTokens, String.append_assoc] using
    hbegin.append (spells_intercalate a attrs)

theorem Attr.spells_listToText (attrs : List Attr) :
    Spells (listToText attrs) (listTokens attrs) := by
  cases attrs with
  | nil => exact spells_empty
  | cons a attrs => exact spells_listToText_cons a attrs

theorem Attr.endsWord_listToText (attrs : List Attr) : EndsWord (listToText attrs).toList := by
  cases attrs with
  | nil => exact endsWord_nil
  | cons a attrs => simp [listToText, endsWord_cons, isBareChar]

/-- A list of attributes behind a word. -/
theorem spellsWord_append_attrs {text : String} {tokens : List Token}
    (h : SpellsWord text tokens) (attrs : List Attr) :
    SpellsWord (text ++ Attr.listToText attrs) (tokens ++ Attr.listTokens attrs) :=
  h.append_word (Attr.spells_listToText attrs).spellsWord (Attr.endsWord_listToText attrs)

/-! ## Nodes, ends and edges -/

/-- A piece of a port behind its colon. -/
theorem spellsWord_piece (piece : List Char) :
    SpellsWord (":" ++ String.ofList (Literal.quote piece)) [.colon, .quoted piece] := by
  have hcolon : Spells ":" [.colon] := spells_punctuation_cons rfl spells_empty
  exact hcolon.append_word (Literal.spellsWord_quote piece)

theorem endsWord_port (port : String) : EndsWord (portToText port).toList := by
  unfold portToText
  cases Text.pieces ':' port.toList with
  | nil => exact endsWord_nil
  | cons piece pieces => simp [endsWord_cons, isBareChar]

theorem spellsWord_portToText (port : String) : SpellsWord (portToText port) (portTokens port) := by
  unfold portToText portTokens
  induction Text.pieces ':' port.toList with
  | nil => exact spells_empty.spellsWord
  | cons piece pieces ih =>
      have hbreak : EndsWord (String.join (pieces.map fun piece =>
          ":" ++ String.ofList (Literal.quote piece))).toList := by
        cases pieces with
        | nil => exact endsWord_nil
        | cons next pieces => simp [endsWord_cons, isBareChar]
      simpa using (spellsWord_piece piece).append_word ih hbreak

theorem NodeRef.spellsWord_toText (ref : NodeRef) : SpellsWord ref.toText ref.tokens := by
  unfold toText tokens
  cases ref.port with
  | none => simpa using ref.id.spellsWord_toText
  | some port =>
      exact ref.id.spellsWord_toText.append_word (spellsWord_portToText port) (endsWord_port port)

theorem spells_subgraph : Spells "subgraph " [.subgraph] := by
  have hword : SpellsWord "subgraph" [.subgraph] :=
    spellsWord_of_isBareChar (by decide) rfl
  exact spells_keyword hword

theorem Endpoint.spellsWord_toText (e : Endpoint) : SpellsWord e.toText e.tokens := by
  cases e with
  | node ref => exact ref.spellsWord_toText
  | subgraph id =>
      have hbody : Spells " \x7b\x7d" [.openBrace, .closeBrace] :=
        spells_blank_cons rfl
          (spells_punctuation_cons rfl (spells_punctuation_cons rfl spells_empty))
      have hid : Spells (id.toText ++ " \x7b\x7d") [id.token, .openBrace, .closeBrace] :=
        id.spellsWord_toText.append hbody rfl rfl
      simpa [toText, tokens, String.append_assoc] using (spells_subgraph.append hid).spellsWord

theorem toList_edgeOperator (directed : Bool) :
    (" " ++ edgeOperator directed ++ " ").toList =
      [' ', '-', if directed then '>' else '-', ' '] := by
  cases directed <;> rfl

/-- The operator of an edge between its blanks. -/
theorem spells_edgeOperator (directed : Bool) :
    Spells (" " ++ edgeOperator directed ++ " ") [.edgeOp directed] := by
  intro rest
  simp only [toList_edgeOperator, List.cons_append, List.nil_append]
  rw [lex_blank rfl, lex_edgeOp, lex_blank rfl]

theorem EdgeStmt.spellsWord_toText (s : EdgeStmt) :
    SpellsWord s.toText
      (s.src.tokens ++ .edgeOp s.directed :: s.dst.tokens ++ Attr.listTokens s.attrs) := by
  have hsrc : Spells (s.src.toText ++ (" " ++ edgeOperator s.directed ++ " "))
      (s.src.tokens ++ [.edgeOp s.directed]) :=
    s.src.spellsWord_toText.append (spells_edgeOperator s.directed)
      (toList_edgeOperator s.directed) rfl
  have hends := hsrc.append_word s.dst.spellsWord_toText
  simpa [toText, String.append_assoc] using spellsWord_append_attrs hends s.attrs

/-! ## Statements -/

/-- Only blanks indent the lines. -/
def IsBlankIndent (indent : String) : Prop := ∀ c ∈ indent.toList, isBlank c = true

instance (indent : String) : Decidable (IsBlankIndent indent) :=
  decidable_of_iff (indent.toList.all isBlank = true) List.all_eq_true

variable {indent : String}

theorem spells_indentation (h : IsBlankIndent indent) (level : Nat) :
    Spells (indentation indent level) [] := by
  apply spells_blanks
  intro c hc
  rw [indentation, String.toList_join, List.mem_flatMap] at hc
  obtain ⟨text, htext, hc⟩ := hc
  rw [List.eq_of_mem_replicate htext] at hc
  exact h c hc

theorem spells_stmtLine (h : IsBlankIndent indent) {text : String} {tokens : List Token}
    (htext : SpellsWord text tokens) (level : Nat) :
    Spells (stmtLine indent level text) (tokens ++ [.semicolon]) := by
  have hline : Spells (text ++ ";\n") (tokens ++ [.semicolon]) :=
    htext.append spells_lineEnd rfl rfl
  simpa [stmtLine, String.append_assoc] using (spells_indentation h level).append hline

theorem AttrStmt.spells_stmtLine (h : IsBlankIndent indent) (a : AttrStmt) (level : Nat) :
    Spells (stmtLine indent level a.toText) a.tokens :=
  DotModel.spells_stmtLine h (Attr.spellsWord_toText ⟨a.key, a.value⟩) level

theorem AttrStmt.spells_stmtLines (h : IsBlankIndent indent) (attrs : List AttrStmt)
    (level : Nat) :
    Spells (String.join (attrs.map fun a => stmtLine indent level a.toText))
      (attrs.flatMap tokens) := by
  induction attrs with
  | nil => exact spells_empty
  | cons a rest ih =>
      rw [List.map_cons, String.join_cons, List.flatMap_cons]
      exact (a.spells_stmtLine h level).append ih

theorem NodeStmt.spells_stmtLine (h : IsBlankIndent indent) (s : NodeStmt) (level : Nat) :
    Spells (stmtLine indent level s.toText) s.tokens :=
  DotModel.spells_stmtLine h (spellsWord_append_attrs s.node.spellsWord_toText s.attrs) level

theorem EdgeStmt.spells_stmtLine (h : IsBlankIndent indent) (s : EdgeStmt) (level : Nat) :
    Spells (stmtLine indent level s.toText) s.tokens :=
  DotModel.spells_stmtLine h s.spellsWord_toText level

namespace Stmt

/-- The lines of a subgraph around those of its body. -/
theorem spells_subgraph_lines (h : IsBlankIndent indent) (id : Ident) (attrs : List AttrStmt)
    {body : List Stmt} {level : Nat}
    (hbody : Spells (bodyToText indent (level + 1) body) (bodyTokens body)) :
    Spells (toText indent level (.subgraph id attrs body))
      (tokens (.subgraph id attrs body)) := by
  have hhead : Spells (indentation indent level ++ "subgraph " ++ (id.toText ++ " \x7b\n"))
      [.subgraph, id.token, .openBrace] :=
    ((spells_indentation h level).append spells_subgraph).append
      (id.spellsWord_toText.append spells_bodyBegin rfl rfl)
  have hattrs := hhead.append (AttrStmt.spells_stmtLines h attrs (level + 1))
  have hclose := (spells_indentation h level).append spells_bodyEnd
  simpa [toText, tokens, String.append_assoc] using (hattrs.append hbody).append hclose

mutual

theorem spells_toText (h : IsBlankIndent indent) (s : Stmt) (level : Nat) :
    Spells (toText indent level s) s.tokens :=
  match s with
  | .attr stmt => stmt.spells_stmtLine h level
  | .node stmt => stmt.spells_stmtLine h level
  | .edge stmt => stmt.spells_stmtLine h level
  | .subgraph id attrs body =>
    spells_subgraph_lines h id attrs (spells_bodyToText h body (level + 1))

theorem spells_bodyToText (h : IsBlankIndent indent) (body : List Stmt) (level : Nat) :
    Spells (bodyToText indent level body) (bodyTokens body) :=
  match body with
  | [] => spells_empty
  | s :: rest => (spells_toText h s level).append (spells_bodyToText h rest level)

end

end Stmt

/-! ## Documents -/

theorem spellsWord_kind (directed : Bool) :
    SpellsWord (if directed then "digraph" else "graph") [.kind directed] := by
  cases directed with
  | true => exact spellsWord_of_isBareChar (by decide) rfl
  | false => exact spellsWord_of_isBareChar (by decide) rfl

theorem Header.spellsWord_toText (header : Header) :
    SpellsWord header.toText header.tokens := by
  have hstrict : Spells (if header.strict then "strict " else "")
      (if header.strict then [.strict] else []) := by
    cases header.strict with
    | true =>
        have hword : SpellsWord "strict" [.strict] :=
          spellsWord_of_isBareChar (by decide) rfl
        exact spells_keyword hword
    | false => exact spells_empty
  have hkind := hstrict.append_word (spellsWord_kind header.directed)
  unfold toText tokens
  cases header.id with
  | none => simpa using hkind
  | some id =>
      have hid : SpellsWord (" " ++ id.toText) [id.token] :=
        spells_space.append_word id.spellsWord_toText
      have hbreak : EndsWord (" " ++ id.toText).toList := by
        rw [String.toList_append]
        exact endsWord_cons.mpr rfl
      simpa using hkind.append_word hid hbreak

theorem Document.spells_toText (h : IsBlankIndent indent) (doc : Document) :
    Spells (doc.toText indent) doc.tokens := by
  have hhead : Spells (doc.header.toText ++ " \x7b\n") (doc.header.tokens ++ [.openBrace]) :=
    doc.header.spellsWord_toText.append spells_bodyBegin rfl rfl
  have hbody := hhead.append (Stmt.spells_bodyToText h doc.stmts 1)
  simpa [toText, tokens, String.append_assoc] using hbody.append spells_bodyEnd

/-! ## Keywords -/

/-- The keywords that the structure of a document consists of. -/
def Token.structural : List Token := [.strict, .kind true, .kind false, .subgraph]

/-- Bare keywords are structural, and identifiers are keywords in no case. -/
def Token.IsProper : Token → Prop
  | .keyword word => .keyword word ∈ structural
  | .ident text => Literal.isKeyword text = false
  | _ => True

@[simp] theorem Token.isProper_mark :
    openBrace.IsProper ∧ closeBrace.IsProper ∧ openBracket.IsProper ∧ closeBracket.IsProper ∧
      equals.IsProper ∧ semicolon.IsProper ∧ colon.IsProper ∧ comma.IsProper ∧
      ∀ directed, (edgeOp directed).IsProper := by
  simp [IsProper]

@[simp] theorem Token.isProper_quoted (text : List Char) : (Token.quoted text).IsProper :=
  Literal.isKeyword_quote text

@[simp] theorem Token.isProper_strict : Token.strict.IsProper := by
  simp [strict, IsProper, structural]

@[simp] theorem Token.isProper_kind (directed : Bool) : (Token.kind directed).IsProper := by
  cases directed <;> simp [kind, IsProper, structural]

@[simp] theorem Token.isProper_subgraph : Token.subgraph.IsProper := by
  simp [subgraph, IsProper, structural]

@[simp] theorem Ident.isProper_token (id : Ident) : id.token.IsProper :=
  Token.isProper_quoted id.text.toList

theorem isProper_portTokens (port : String) : ∀ t ∈ portTokens port, t.IsProper := by
  rw [portTokens, List.forall_mem_flatMap]
  intro piece _
  simp

theorem NodeRef.isProper_tokens (ref : NodeRef) : ∀ t ∈ ref.tokens, t.IsProper := by
  rw [tokens, List.forall_mem_cons]
  refine ⟨ref.id.isProper_token, ?_⟩
  cases ref.port with
  | none => simp
  | some port => exact isProper_portTokens port

theorem Endpoint.isProper_tokens (e : Endpoint) : ∀ t ∈ e.tokens, t.IsProper := by
  cases e with
  | node ref => exact ref.isProper_tokens
  | subgraph id => simp [tokens]

theorem Attr.isProper_tokens (a : Attr) : ∀ t ∈ a.tokens, t.IsProper := by simp [tokens]

theorem Attr.isProper_listTokens (attrs : List Attr) : ∀ t ∈ listTokens attrs, t.IsProper := by
  cases attrs with
  | nil => simp [listTokens]
  | cons a rest =>
      have hrest : ∀ b ∈ rest, ∀ t ∈ b.tokens, t.IsProper := fun b _ => b.isProper_tokens
      simp only [listTokens, List.forall_mem_cons, List.forall_mem_append, List.forall_mem_flatMap]
      simpa using ⟨a.isProper_tokens, hrest⟩

theorem AttrStmt.isProper_tokens (a : AttrStmt) : ∀ t ∈ a.tokens, t.IsProper := by
  simp [tokens]

theorem NodeStmt.isProper_tokens (s : NodeStmt) : ∀ t ∈ s.tokens, t.IsProper := by
  simp only [tokens, List.forall_mem_append]
  exact ⟨⟨s.node.isProper_tokens, Attr.isProper_listTokens s.attrs⟩, by simp⟩

theorem EdgeStmt.isProper_tokens (s : EdgeStmt) : ∀ t ∈ s.tokens, t.IsProper := by
  simp only [tokens, List.forall_mem_append, List.forall_mem_cons]
  exact ⟨⟨⟨s.src.isProper_tokens, by simp, s.dst.isProper_tokens⟩,
    Attr.isProper_listTokens s.attrs⟩, by simp⟩

namespace Stmt

mutual

theorem isProper_tokens (s : Stmt) : ∀ t ∈ s.tokens, t.IsProper :=
  match s with
  | .attr stmt => stmt.isProper_tokens
  | .node stmt => stmt.isProper_tokens
  | .edge stmt => stmt.isProper_tokens
  | .subgraph id attrs body => by
      simp only [tokens, List.forall_mem_append, List.forall_mem_flatMap]
      exact ⟨⟨⟨by simp, fun a _ => a.isProper_tokens⟩, isProper_bodyTokens body⟩, by simp⟩

theorem isProper_bodyTokens (body : List Stmt) : ∀ t ∈ bodyTokens body, t.IsProper :=
  match body with
  | [] => by simp [bodyTokens]
  | s :: rest => List.forall_mem_append.mpr ⟨isProper_tokens s, isProper_bodyTokens rest⟩

end

end Stmt

theorem Header.isProper_tokens (header : Header) : ∀ t ∈ header.tokens, t.IsProper := by
  unfold tokens
  cases header.strict <;> cases header.id <;> simp

theorem Document.isProper_tokens (doc : Document) : ∀ t ∈ doc.tokens, t.IsProper := by
  simp only [tokens, List.forall_mem_append, List.forall_mem_cons]
  exact ⟨⟨doc.header.isProper_tokens, by simp, Stmt.isProper_bodyTokens doc.stmts⟩, by simp⟩

/-! ## Reading back -/

/-- The text of a document is read as its own tokens.  Whatever the identifiers and ports contain,
none of them is read as a bare keyword; those belong to the structure alone. -/
theorem Document.lex_toText (doc : Document) {indent : String} (h : IsBlankIndent indent) :
    lex (doc.toText indent).toList = some doc.tokens ∧ ∀ t ∈ doc.tokens, t.IsProper := by
  refine ⟨?_, doc.isProper_tokens⟩
  have hread := doc.spells_toText h []
  rw [List.append_nil] at hread
  rw [hread, lex]
  exact congrArg some (List.append_nil doc.tokens)

/-- Identifiers and ports that look like structure, strings or comments. -/
def hostile : Document where
  header := ⟨some ⟨"Strict"⟩, true, true⟩
  stmts := [
    .attr ⟨"", ⟨"a\x7d;"⟩, ⟨"<b><"⟩⟩,
    .subgraph ⟨"subgraph \x7b"⟩ [⟨"", ⟨"\"]"⟩, ⟨"tail\\"⟩⟩]
      [.node ⟨⟨⟨"-"⟩, some "n::\n"⟩, [⟨⟨"="⟩, ⟨"\"ok\""⟩⟩, ⟨⟨"-.5"⟩, ⟨"<i>\"</i>"⟩⟩]⟩],
    .edge ⟨.node ⟨⟨"--"⟩, some ""⟩, .subgraph ⟨"\"open"⟩, false, []⟩]

theorem hostile_lex_toText :
    IsBlankIndent " \t" ∧ lex (hostile.toText " \t").toList = some hostile.tokens ∧
      ∀ t ∈ hostile.tokens, t.IsProper := by
  have hindent : IsBlankIndent " \t" := by decide
  exact ⟨hindent, hostile.lex_toText hindent⟩

end DotModel
