import DotModel.Document.Grammar
import DotModel.Graph.Command
import DotModel.Proofs.Document.Printing
import DotModel.Proofs.Writing.Depth
import Mathlib.Data.List.Infix

/-!
# Which documents are in the grammar

The tokens of a document are derivable in the grammar of DOT exactly if no port of it has more than
one colon.  One direction builds the derivation along the document.  For the other, no derivable
phrase begins or ends with a colon or has three colons with single identifiers between them, which
phrases keep when they are put together; a port with two colons is written with three.
-/

namespace DotModel

open Grammar Token

/-! ## Ports -/

namespace Stmt

mutual

/-- The ports in a statement, at every level. -/
def ports : Stmt → List String
  | .attr _ => []
  | .node stmt => stmt.node.port.toList
  | .edge stmt => stmt.src.port.toList ++ stmt.dst.port.toList
  | .subgraph _ _ body => bodyPorts body

/-- The ports in a body, at every level. -/
def bodyPorts : List Stmt → List String
  | [] => []
  | s :: rest => ports s ++ bodyPorts rest

end

theorem bodyPorts_eq_flatMap (body : List Stmt) : bodyPorts body = body.flatMap ports := by
  induction body with
  | nil => rfl
  | cons s rest ih => rw [bodyPorts, ih, List.flatMap_cons]

end Stmt

/-- The ports of a document. -/
def Document.ports (doc : Document) : List String := Stmt.bodyPorts doc.stmts

/-- The ports of an edge. -/
def Edge.ports (e : Edge) : List String := e.srcPort.toList ++ e.dstPort.toList

/-- A name, or a name and a compass point: at most one colon. -/
def IsDotPort (port : String) : Prop := port.toList.count ':' ≤ 1

instance (port : String) : Decidable (IsDotPort port) := inferInstanceAs (Decidable (_ ≤ _))

/-! ## Derivations -/

theorem isPort_portTokens {port : String} (h : IsDotPort port) : IsPort (portTokens port) := by
  have hlength := Text.length_pieces ':' port.toList
  unfold IsDotPort at h
  unfold portTokens
  cases hpieces : Text.pieces ':' port.toList with
  | nil =>
      rw [hpieces] at hlength
      simp at hlength
  | cons name more =>
      cases more with
      | nil => exact .name _
      | cons point more =>
          have hmore : more = [] := by
            rw [hpieces, List.length_cons, List.length_cons] at hlength
            exact List.length_eq_zero_iff.mp (by omega)
          rw [hmore]
          exact .compass _ _

theorem NodeRef.isNodeId_tokens {ref : NodeRef} (h : ∀ port ∈ ref.port.toList, IsDotPort port) :
    IsNodeId ref.tokens := by
  obtain ⟨id, port⟩ := ref
  cases port with
  | none => exact .plain _
  | some port => exact .port _ (isPort_portTokens (h port List.mem_cons_self))

theorem Endpoint.derives_tokens {e : Endpoint} (h : ∀ port ∈ e.port.toList, IsDotPort port) :
    Derives .endpoint e.tokens := by
  cases e with
  | node ref => exact .nodeEnd (NodeRef.isNodeId_tokens h)
  | subgraph id => exact .subgraphEnd (.subgraph _ .nil)

theorem Attr.isAttrs_tokens (a : Attr) (attrs : List Attr) :
    IsAttrs (a.tokens ++ attrs.flatMap fun b => .comma :: b.tokens) := by
  induction attrs generalizing a with
  | nil => exact .cons _ _ .none .nil
  | cons b rest ih =>
      have hattrs := IsAttrs.cons (Literal.quote a.key.text.toList)
        (Literal.quote a.value.text.toList) .comma (ih b)
      exact hattrs

theorem Attr.isAttrList_listTokens (attrs : List Attr) : IsAttrList (listTokens attrs) := by
  cases attrs with
  | nil => exact .nil
  | cons a rest => exact .cons (isAttrs_tokens a rest) .nil

section Statements

variable {rest : List Token}

theorem AttrStmt.derives_tokens_append (a : AttrStmt) (hrest : Derives .stmts rest) :
    Derives .stmts (a.tokens ++ rest) :=
  .consSemicolon (.assignment _ _) hrest

theorem AttrStmt.derives_flatMap_append (attrs : List AttrStmt) (hrest : Derives .stmts rest) :
    Derives .stmts (attrs.flatMap tokens ++ rest) := by
  induction attrs with
  | nil => exact hrest
  | cons a attrs ih =>
      rw [List.flatMap_cons, List.append_assoc]
      exact a.derives_tokens_append ih

theorem NodeStmt.derives_tokens_append {s : NodeStmt}
    (h : ∀ port ∈ s.node.port.toList, IsDotPort port)
    (hrest : Derives .stmts rest) : Derives .stmts (s.tokens ++ rest) := by
  have hstmt := Derives.node (NodeRef.isNodeId_tokens h) (Attr.isAttrList_listTokens s.attrs)
  simpa [tokens] using hstmt.consSemicolon hrest

theorem EdgeStmt.derives_tokens_append {s : EdgeStmt}
    (h : ∀ port ∈ s.src.port.toList ++ s.dst.port.toList, IsDotPort port)
    (hrest : Derives .stmts rest) : Derives .stmts (s.tokens ++ rest) := by
  rw [List.forall_mem_append] at h
  have hstmt := Derives.edge s.directed (Endpoint.derives_tokens h.1) (Endpoint.derives_tokens h.2)
    (Attr.isAttrList_listTokens s.attrs)
  simpa [tokens] using hstmt.consSemicolon hrest

end Statements

namespace Stmt

mutual

theorem derives_tokens_append (s : Stmt) (h : ∀ port ∈ s.ports, IsDotPort port)
    {rest : List Token} (hrest : Derives .stmts rest) : Derives .stmts (s.tokens ++ rest) :=
  match s with
  | .attr stmt => stmt.derives_tokens_append hrest
  | .node _ => NodeStmt.derives_tokens_append h hrest
  | .edge _ => EdgeStmt.derives_tokens_append h hrest
  | .subgraph id attrs body => by
      have hbody := AttrStmt.derives_flatMap_append attrs (derives_bodyTokens body h)
      have hblock := Derives.block (Derives.subgraph (Literal.quote id.text.toList) hbody)
      simpa [tokens, Ident.token, quoted] using hblock.cons hrest

theorem derives_bodyTokens (body : List Stmt) (h : ∀ port ∈ bodyPorts body, IsDotPort port) :
    Derives .stmts (bodyTokens body) :=
  match body with
  | [] => .nil
  | s :: rest =>
    have h := List.forall_mem_append.mp h
    derives_tokens_append s h.1 (derives_bodyTokens rest h.2)

end

end Stmt

theorem Document.isGraph_tokens {doc : Document}
    (h : ∀ port ∈ doc.ports, IsDotPort port) : IsGraph doc.tokens := by
  have hgraph := IsGraph.intro doc.header.strict doc.header.directed
    (doc.header.id.map fun id => Literal.quote id.text.toList)
    (Stmt.derives_bodyTokens doc.stmts h)
  rw [Option.map_map] at hgraph
  exact hgraph

/-! ## What no phrase contains -/

/-- Three colons with single identifiers between them. -/
def longPort (a b : List Char) : List Token := [.colon, .ident a, .colon, .ident b, .colon]

/-- Wherever a long port is cut in two, a colon is at the cut. -/
theorem colon_of_longPort_eq_append {a b : List Char} {left right : List Token}
    (h : longPort a b = left ++ right) (hleft : left ≠ []) (hright : right ≠ []) :
    .colon ∈ left.getLast? ∨ .colon ∈ right.head? := by
  simp only [longPort, List.cons_eq_append_iff] at h
  rcases h with ⟨rfl, -⟩ | ⟨_, rfl, ⟨rfl, rfl⟩ | ⟨_, rfl, ⟨rfl, rfl⟩ | ⟨_, rfl, ⟨rfl, rfl⟩ |
    ⟨_, rfl, ⟨rfl, rfl⟩ | ⟨_, rfl, hnil⟩⟩⟩⟩⟩
  · exact absurd rfl hleft
  · exact .inl rfl
  · exact .inr rfl
  · exact .inl rfl
  · exact .inr rfl
  · exact absurd (List.append_eq_nil_iff.mp hnil.symm).2 hright

/-- No long port stands in these tokens, and none arises at their ends when others of this kind
stand beside them. -/
structure HasShortPorts (tokens : List Token) : Prop where
  head_ne : .colon ∉ tokens.head?
  last_ne : .colon ∉ tokens.getLast?
  not_longPort : ∀ a b, ¬longPort a b <:+: tokens

namespace HasShortPorts

variable {t : Token} {s tokens : List Token}

theorem of_length_lt (hhead : .colon ∉ tokens.head?) (hlast : .colon ∉ tokens.getLast?)
    (hlength : tokens.length < 5) : HasShortPorts tokens where
  head_ne := hhead
  last_ne := hlast
  not_longPort _ _ h := by
    have := h.length_le
    simp [longPort] at this
    omega

theorem nil : HasShortPorts [] := of_length_lt (by simp) (by simp) (by simp)

theorem append (hs : HasShortPorts s) (ht : HasShortPorts tokens) :
    HasShortPorts (s ++ tokens) where
  head_ne h := by
    rw [List.head?_append, Option.mem_def, Option.or_eq_some_iff] at h
    rcases h with h | ⟨-, h⟩
    · exact hs.head_ne h
    · exact ht.head_ne h
  last_ne h := by
    rw [List.getLast?_append, Option.mem_def, Option.or_eq_some_iff] at h
    rcases h with h | ⟨-, h⟩
    · exact ht.last_ne h
    · exact hs.last_ne h
  not_longPort a b h := by
    rcases List.infix_append_iff.mp h with h | h | hsplit
    · exact hs.not_longPort a b h
    · exact ht.not_longPort a b h
    -- Across the joint both parts of the cut must be there, and a colon is beside it.
    obtain ⟨left, right, heq, ⟨before, hleft⟩, ⟨after, hright⟩⟩ := hsplit
    by_cases hnoLeft : left = []
    · rw [hnoLeft, List.nil_append] at heq
      exact ht.not_longPort a b ⟨[], after, by rw [heq, List.nil_append, hright]⟩
    by_cases hnoRight : right = []
    · rw [hnoRight, List.append_nil] at heq
      exact hs.not_longPort a b ⟨before, [], by rw [heq, List.append_nil, hleft]⟩
    rcases colon_of_longPort_eq_append heq hnoLeft hnoRight with h | h
    · refine hs.last_ne ?_
      rw [← hleft, List.getLast?_append, h]
      rfl
    · refine ht.head_ne ?_
      rw [← hright, List.head?_append, h]
      rfl

theorem cons (ht : t ≠ .colon) (h : HasShortPorts tokens) : HasShortPorts (t :: tokens) := by
  have hsingle : HasShortPorts [t] := of_length_lt (by simpa using ht) (by simpa using ht) (by simp)
  exact hsingle.append h

end HasShortPorts

theorem Grammar.IsNodeId.hasShortPorts {tokens : List Token} (h : IsNodeId tokens) :
    HasShortPorts tokens := by
  cases h with
  | plain id => exact .cons (by simp) .nil
  | port id hport =>
      cases hport with
      | name port => exact .of_length_lt (by simp) (by simp) (by simp)
      | compass port point =>
          refine ⟨by simp, by simp, fun a b h => ?_⟩
          have heq := h.eq_of_length rfl
          simp [longPort] at heq

theorem Grammar.IsSeparator.hasShortPorts {tokens : List Token} (h : IsSeparator tokens) :
    HasShortPorts tokens := by
  cases h with
  | none => exact .nil
  | comma => exact .cons (by simp) .nil
  | semicolon => exact .cons (by simp) .nil

theorem Grammar.IsAttrs.hasShortPorts {tokens : List Token} (h : IsAttrs tokens) :
    HasShortPorts tokens := by
  induction h with
  | nil => exact .nil
  | cons key value hseparator _ ih =>
      exact .cons (by simp) (.cons (by simp) (.cons (by simp) (hseparator.hasShortPorts.append ih)))

theorem Grammar.IsAttrList.hasShortPorts {tokens : List Token} (h : IsAttrList tokens) :
    HasShortPorts tokens := by
  induction h with
  | nil => exact .nil
  | cons hattrs _ ih => exact .cons (by simp) (hattrs.hasShortPorts.append (.cons (by simp) ih))

theorem Grammar.Derives.hasShortPorts {phrase : Phrase} {tokens : List Token}
    (h : Derives phrase tokens) : HasShortPorts tokens := by
  have hclose : HasShortPorts [.closeBrace] := .cons (by simp) .nil
  induction h with
  | subgraph id _ ih =>
      exact .cons (by simp [Token.subgraph]) (.cons (by simp) (.cons (by simp) (ih.append hclose)))
  | nodeEnd hnode => exact hnode.hasShortPorts
  | subgraphEnd _ ih => exact ih
  | assignment key value => exact .cons (by simp) (.cons (by simp) (.cons (by simp) .nil))
  | node hnode hattrs => exact hnode.hasShortPorts.append hattrs.hasShortPorts
  | edge directed _ _ hattrs ihsrc ihdst =>
      have hends := ihsrc.append (.cons (t := .edgeOp directed) (by simp) ihdst)
      exact hends.append hattrs.hasShortPorts
  | block _ ih => exact ih
  | nil => exact .nil
  | cons _ _ ihstmt ihrest => exact ihstmt.append ihrest
  | consSemicolon _ _ ihstmt ihrest => exact ihstmt.append (.cons (by simp) ihrest)

theorem Grammar.IsGraph.hasShortPorts {tokens : List Token} (h : IsGraph tokens) :
    HasShortPorts tokens := by
  obtain ⟨strict, directed, id, hbody⟩ := h
  have hstrict : HasShortPorts (if strict then [.strict] else []) := by
    cases strict with
    | true => exact .cons (by simp [Token.strict]) .nil
    | false => exact .nil
  have hid : HasShortPorts (id.map Token.ident).toList := by
    cases id with
    | none => exact .nil
    | some id => exact .cons (by simp) .nil
  have hkind : Token.kind directed ≠ .colon := by cases directed <;> simp [Token.kind]
  have hclose : HasShortPorts [.closeBrace] := .cons (by simp) .nil
  exact ((hstrict.append (.cons hkind hid)).append (.cons (by simp) hbody.hasShortPorts)).append
    hclose

/-! ## Where ports stand -/

/-- A port of more parts than a name and a point has a long port in it. -/
theorem exists_longPort_of_not_isDotPort {port : String} (h : ¬IsDotPort port) :
    ∃ a b, longPort a b <:+: portTokens port := by
  have hlength := Text.length_pieces ':' port.toList
  unfold IsDotPort at h
  unfold portTokens
  match hpieces : Text.pieces ':' port.toList with
  | [] | [_] | [_, _] =>
      rw [hpieces] at hlength
      simp only [List.length_cons, List.length_nil] at hlength
      omega
  | name :: point :: next :: rest =>
      refine ⟨Literal.quote name, Literal.quote point, [], .quoted next ::
        rest.flatMap fun piece => [.colon, .quoted piece], ?_⟩
      simp [longPort, Token.quoted]

theorem NodeRef.infix_tokens {ref : NodeRef} {port : String} (h : port ∈ ref.port.toList) :
    portTokens port <:+: ref.tokens := by
  rw [Option.mem_toList] at h
  rw [tokens, h]
  exact (List.suffix_cons _ _).isInfix

theorem Endpoint.infix_tokens {e : Endpoint} {port : String} (h : port ∈ e.port.toList) :
    portTokens port <:+: e.tokens := by
  cases e with
  | node ref => exact NodeRef.infix_tokens h
  | subgraph id => cases h

theorem NodeStmt.infix_tokens {s : NodeStmt} {port : String} (h : port ∈ s.node.port.toList) :
    portTokens port <:+: s.tokens := by
  refine (NodeRef.infix_tokens h).trans ?_
  rw [tokens, List.append_assoc]
  exact (List.prefix_append _ _).isInfix

theorem EdgeStmt.infix_tokens {s : EdgeStmt} {port : String}
    (h : port ∈ s.src.port.toList ++ s.dst.port.toList) : portTokens port <:+: s.tokens := by
  rw [tokens, List.append_assoc, List.append_assoc]
  rcases List.mem_append.mp h with h | h
  · exact (Endpoint.infix_tokens h).trans (List.prefix_append _ _).isInfix
  · refine (Endpoint.infix_tokens h).trans ?_
    exact ⟨s.src.tokens ++ [.edgeOp s.directed], Attr.listTokens s.attrs ++ [.semicolon],
      by simp only [List.append_assoc, List.cons_append, List.nil_append]⟩

namespace Stmt

mutual

theorem infix_tokens (s : Stmt) {port : String} (h : port ∈ s.ports) :
    portTokens port <:+: s.tokens :=
  match s with
  | .attr _ => by cases h
  | .node _ => NodeStmt.infix_tokens h
  | .edge _ => EdgeStmt.infix_tokens h
  | .subgraph id attrs body => by
      have hbody := infix_bodyTokens body h
      exact hbody.trans ⟨_, _, rfl⟩

theorem infix_bodyTokens (body : List Stmt) {port : String} (h : port ∈ bodyPorts body) :
    portTokens port <:+: bodyTokens body :=
  match body with
  | [] => by cases h
  | s :: rest => by
      rcases List.mem_append.mp h with h | h
      · exact (infix_tokens s h).trans (List.prefix_append _ _).isInfix
      · exact (infix_bodyTokens rest h).trans (List.suffix_append _ _).isInfix

end

end Stmt

/-- The tokens of a document are DOT exactly if each of its ports is. -/
theorem Document.isGraph_tokens_iff {doc : Document} :
    IsGraph doc.tokens ↔ ∀ port ∈ doc.ports, IsDotPort port := by
  constructor
  · intro h port hport
    by_contra hlong
    obtain ⟨a, b, hlongPort⟩ := exists_longPort_of_not_isDotPort hlong
    have hbody : portTokens port <:+: doc.tokens := by
      refine (Stmt.infix_bodyTokens doc.stmts hport).trans ?_
      exact ⟨doc.header.tokens ++ [.openBrace], [.closeBrace], by simp [tokens]⟩
    exact h.hasShortPorts.not_longPort a b (hlongPort.trans hbody)
  · exact isGraph_tokens

namespace Graph

variable {g : Graph} {s : Settings}

mutual

theorem ports_toStmt (g : Graph) (place : Place) : (place.toStmt g).ports = [] :=
  match place with
  | .node _ => rfl
  | .body _ inside => bodyPorts_toStmts g inside
  | .mention _ => rfl

/-- Members are written without ports. -/
theorem bodyPorts_toStmts (g : Graph) (places : List Place) :
    Stmt.bodyPorts (Place.toStmts g places) = [] :=
  match places with
  | [] => rfl
  | place :: rest => by
      rw [Place.toStmts_cons, Stmt.bodyPorts, ports_toStmt g place, bodyPorts_toStmts g rest,
        List.append_nil]

end

theorem ports_of_edgeStmt {e : Edge} {stmt : EdgeStmt} (h : g.edgeStmt e = .ok stmt) :
    (Stmt.edge stmt).ports = e.ports := by
  obtain ⟨src, dst, hsrc, hdst, rfl⟩ := edgeStmt_ok_cases h
  rw [Stmt.ports, (name_and_port_of_endpoint hsrc).2, (name_and_port_of_endpoint hdst).2,
    Edge.ports]

/-- The ports of a document are those of the edges, in their order. -/
theorem ports_of_toDocument {doc : Document} (h : g.toDocument s = .ok doc) :
    doc.ports = g.edges.toList.flatMap Edge.ports := by
  obtain ⟨o, edges, ho, hedges, rfl⟩ := toDocument_ok_cases h
  obtain ⟨layout, lost, hstmts, -⟩ := exists_needsLevels_of_outline ho
  have hattrs : ((attrStmts g.name g.attrs).map Stmt.attr).flatMap Stmt.ports = [] := by
    simp [List.flatMap_map, Stmt.ports]
  have hlost : (lost.map nodeStmt).flatMap Stmt.ports = [] := by
    simp [List.flatMap_map, nodeStmt, Stmt.ports]
  have hmembers := bodyPorts_toStmts g layout
  have hports : (edges.map Stmt.edge).map Stmt.ports = g.edges.toList.map Edge.ports := by
    rw [List.map_map]
    exact map_eq_map_of_mapM_ok hedges fun _ _ _ hstmt => ports_of_edgeStmt hstmt
  rw [Stmt.bodyPorts_eq_flatMap] at hmembers
  simp only [Document.ports, Stmt.bodyPorts_eq_flatMap, hstmts, List.flatMap_append, hattrs,
    hmembers, hlost, List.nil_append]
  rw [List.flatMap_def, hports, ← List.flatMap_def]

/-- The text of a graph is in the grammar of DOT exactly if each port of its edges is at most a name
and a compass point. -/
theorem exists_tokens_of_toText {text : String} (hindent : IsBlankIndent s.indent)
    (h : g.toText s = .ok text) :
    ∃ tokens, lex text.toList = some tokens ∧
      (IsGraph tokens ↔ ∀ e ∈ g.edges.toList, ∀ port ∈ e.ports, IsDotPort port) := by
  obtain ⟨doc, hdoc, htext⟩ := bind_eq_ok_iff.mp h
  cases htext
  refine ⟨doc.tokens, (doc.spells_toText hindent).lex_eq, ?_⟩
  rw [Document.isGraph_tokens_iff, ports_of_toDocument hdoc, List.forall_mem_flatMap]

/-- Ports with a compass point and without, an attribute, and a subgraph at the end of an edge. -/
def compassPorts : Graph :=
  empty.performAll [.setName "G", .addSubgraph "G" "sub" ∅, .addNode "sub" "edge" ∅,
    .addAttr "sub" "a b" "<i>", .addEdge ((Edge.between "edge" "n" true ∅).withPorts "p:ne" ":"),
    .addEdge ((Edge.between "n" "sub" false (.ofList [("k", ""), ("l", "\"")])).withPorts "p" none)]

theorem compassPorts_isGraph :
    IsBlankIndent defaultIndent ∧ ∃ text, compassPorts.toText {} = .ok text ∧
      ∃ tokens, lex text.toList = some tokens ∧ IsGraph tokens := by
  have hindent : IsBlankIndent defaultIndent := by decide
  have hwritten : (compassPorts.toText {}).isOk = true := by decide +kernel
  obtain ⟨text, h⟩ := exists_eq_ok_of_isOk hwritten
  obtain ⟨tokens, hlex, hgraph⟩ := exists_tokens_of_toText hindent h
  exact ⟨hindent, text, h, tokens, hlex, hgraph.mpr (by decide +kernel)⟩

/-- An edge from a port of three parts. -/
def threePartPort : Graph :=
  empty.performAll [.setName "G",
    .addEdge ((Edge.between "a" "b" true ∅).withPorts "p:q:r" none)]

/-- What DOT cannot express is not always refused: the port is written, and the text is not DOT. -/
theorem threePartPort_not_isGraph :
    threePartPort.Reachable ∧ IsBlankIndent defaultIndent ∧
      ∃ text, threePartPort.toText {} = .ok text ∧
        ∃ tokens, lex text.toList = some tokens ∧ ¬IsGraph tokens := by
  have hreachable : threePartPort.Reachable :=
    ⟨_, rfl⟩
  have hindent : IsBlankIndent defaultIndent := by decide
  have hwritten : (threePartPort.toDocument {}).isOk = true := by decide +kernel
  obtain ⟨doc, h⟩ := exists_eq_ok_of_isOk hwritten
  have htext : threePartPort.toText {} = .ok (doc.toText defaultIndent) := by
    rw [toText, h]
    rfl
  refine ⟨hreachable, hindent, _, htext, doc.tokens, (doc.spells_toText hindent).lex_eq, ?_⟩
  rw [Document.isGraph_tokens_iff, ports_of_toDocument h]
  decide +kernel

end Graph

end DotModel
