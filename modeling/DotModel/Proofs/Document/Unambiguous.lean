import DotModel.Proofs.Document.Printing
import DotModel.Proofs.Document.Wording
import DotModel.Proofs.Writing.Shape

/-!
# The text is unambiguous

Two written documents of one text have one wording.  Their text is read as the tokens of both, and
these are cut into the same parts from the front: each part tells by its tokens where it ends, as
long as what follows does not look like more of it.  A port is followed by no colon, a list of
attributes by no bracket and a block by no edge operator.  The attributes of a block come to an end
because no statement of its body begins as an attribute does; in an arbitrary document an attribute
in a body would read as one of the block.
-/

namespace DotModel

open Token

variable {r r' : List Token}

/-- Lists of parts are cut into the same parts if single parts are, up to a rest that no part begins
like. -/
theorem map_eq_of_flatMap_append {α β : Type} {tokens : α → List Token} {f : α → β}
    (Ends : List Token → Prop) {as bs : List α}
    (hcut : ∀ a b r r', tokens a ++ r = tokens b ++ r' → f a = f b ∧ r = r')
    (hends : ∀ a r r', Ends r' → tokens a ++ r ≠ r') (hr : Ends r) (hr' : Ends r')
    (h : as.flatMap tokens ++ r = bs.flatMap tokens ++ r') : as.map f = bs.map f ∧ r = r' := by
  induction as generalizing bs with
  | nil =>
      cases bs with
      | nil => exact ⟨rfl, h⟩
      | cons b bs =>
          rw [List.flatMap_nil, List.nil_append, List.flatMap_cons, List.append_assoc] at h
          exact absurd h.symm (hends b _ r hr)
  | cons a as ih =>
      rw [List.flatMap_cons, List.append_assoc] at h
      cases bs with
      | nil =>
          rw [List.flatMap_nil, List.nil_append] at h
          exact absurd h (hends a _ r' hr')
      | cons b bs =>
          rw [List.flatMap_cons, List.append_assoc] at h
          obtain ⟨ha, h⟩ := hcut a b _ _ h
          obtain ⟨has, hrest⟩ := ih h
          exact ⟨by rw [List.map_cons, List.map_cons, ha, has], hrest⟩

/-! ## Identifiers, ports and attributes -/

theorem Ident.toText_eq_of_token {i j : Ident} (h : i.token = j.token) : i.toText = j.toText := by
  injection h with h
  exact congrArg String.ofList h

/-- The pieces of a port end where no colon follows. -/
theorem map_quote_eq_of_append {ps qs : List (List Char)}
    (hr : .colon ∉ r.head?) (hr' : .colon ∉ r'.head?)
    (h : (ps.flatMap fun p => [.colon, .quoted p]) ++ r =
      (qs.flatMap fun q => [.colon, .quoted q]) ++ r') :
    ps.map Literal.quote = qs.map Literal.quote ∧ r = r' := by
  refine map_eq_of_flatMap_append (fun r => .colon ∉ r.head?) ?_ ?_ hr hr' h
  · intro p q r r' h
    obtain ⟨hpiece, hrest⟩ := List.cons.inj (List.cons.inj h).2
    injection hpiece with hpiece
    exact ⟨hpiece, hrest⟩
  · rintro p r r' hr' rfl
    simp at hr'

theorem portTokens_append (port : String) :
    ∃ text rest, portTokens port ++ r = .colon :: .ident text :: rest := by
  have hlength := Text.length_pieces ':' port.toList
  unfold portTokens
  cases hpieces : Text.pieces ':' port.toList with
  | nil => simp [hpieces] at hlength
  | cons piece pieces => exact ⟨_, _, rfl⟩

theorem portWording_eq_of_append {p q : String}
    (hr : .colon ∉ r.head?) (hr' : .colon ∉ r'.head?)
    (h : portTokens p ++ r = portTokens q ++ r') : portWording p = portWording q ∧ r = r' := by
  obtain ⟨hmap, hrest⟩ := map_quote_eq_of_append hr hr' h
  have hwording := congrArg (List.map String.ofList) hmap
  rw [List.map_map, List.map_map] at hwording
  exact ⟨hwording, hrest⟩

/-- A node with or without a port ends where no colon follows. -/
theorem NodeRef.wording_eq_of_append {a b : NodeRef}
    (hr : .colon ∉ r.head?) (hr' : .colon ∉ r'.head?)
    (h : a.tokens ++ r = b.tokens ++ r') : a.wording = b.wording ∧ r = r' := by
  obtain ⟨i, p⟩ := a
  obtain ⟨j, q⟩ := b
  simp only [tokens, List.cons_append, List.cons.injEq] at h
  obtain ⟨hid, h⟩ := h
  have hid := Ident.toText_eq_of_token hid
  cases p with
  | none =>
      cases q with
      | none => exact ⟨by simp [wording, hid], h⟩
      | some q =>
          obtain ⟨text, rest, hport⟩ := portTokens_append (r := r') q
          have h : r = portTokens q ++ r' := h
          simp [h, hport] at hr
  | some p =>
      cases q with
      | none =>
          obtain ⟨text, rest, hport⟩ := portTokens_append (r := r) p
          have h : portTokens p ++ r = r' := h
          simp [← h, hport] at hr'
      | some q =>
          obtain ⟨hport, hrest⟩ := portWording_eq_of_append hr hr' h
          exact ⟨by simp [wording, hid, hport], hrest⟩

theorem NodeRef.append_ne_subgraph (a : NodeRef) : a.tokens ++ r ≠ .subgraph :: r' := by
  simp [tokens, Ident.token, quoted, Token.subgraph]

theorem Attr.wording_eq_of_append {a b : Attr} (h : a.tokens ++ r = b.tokens ++ r') :
    a.wording = b.wording ∧ r = r' := by
  simp only [tokens, List.cons_append, List.nil_append, List.cons.injEq, true_and] at h
  obtain ⟨hkey, hvalue, hrest⟩ := h
  exact ⟨Prod.ext (Ident.toText_eq_of_token hkey) (Ident.toText_eq_of_token hvalue), hrest⟩

/-- The attributes behind the first one end where no comma follows. -/
theorem Attr.map_wording_eq_of_append {as bs : List Attr}
    (hr : .comma ∉ r.head?) (hr' : .comma ∉ r'.head?)
    (h : (as.flatMap fun a => .comma :: a.tokens) ++ r =
      (bs.flatMap fun b => .comma :: b.tokens) ++ r') :
    as.map wording = bs.map wording ∧ r = r' := by
  refine map_eq_of_flatMap_append (fun r => .comma ∉ r.head?) ?_ ?_ hr hr' h
  · intro a b r r' h
    exact wording_eq_of_append (List.cons.inj h).2
  · rintro a r r' hr' rfl
    simp at hr'

/-- A list of attributes, which may be empty, ends where no bracket opens. -/
theorem Attr.list_wording_eq_of_append {as bs : List Attr}
    (hr : .openBracket ∉ r.head?) (hr' : .openBracket ∉ r'.head?)
    (h : listTokens as ++ r = listTokens bs ++ r') :
    as.map wording = bs.map wording ∧ r = r' := by
  cases as with
  | nil =>
      cases bs with
      | nil => exact ⟨rfl, h⟩
      | cons b bs =>
          rw [listTokens, List.nil_append] at h
          simp [h, listTokens] at hr
  | cons a as =>
      cases bs with
      | nil =>
          rw [listTokens, List.nil_append] at h
          simp [← h, listTokens] at hr'
      | cons b bs =>
          simp only [listTokens, List.cons_append, List.append_assoc, List.cons.injEq, true_and,
            List.nil_append] at h
          obtain ⟨ha, h⟩ := wording_eq_of_append h
          obtain ⟨has, hrest⟩ := map_wording_eq_of_append (by simp) (by simp) h
          exact ⟨by rw [List.map_cons, List.map_cons, ha, has], (List.cons.inj hrest).2⟩

/-- What stands behind the node or the ends of a statement: attributes up to the semicolon. -/
theorem Attr.list_wording_eq_of_append_semicolon {as bs : List Attr}
    (h : listTokens as ++ .semicolon :: r = listTokens bs ++ .semicolon :: r') :
    as.map wording = bs.map wording ∧ r = r' := by
  obtain ⟨hattrs, hrest⟩ := list_wording_eq_of_append (by simp) (by simp) h
  exact ⟨hattrs, (List.cons.inj hrest).2⟩

theorem Attr.colon_notMem_head?_listTokens (as : List Attr) :
    .colon ∉ (listTokens as ++ .semicolon :: r).head? := by
  cases as with
  | nil => simp [listTokens]
  | cons a as => simp [listTokens]

/-! ## Nodes and edges -/

theorem Endpoint.wording_eq_of_append {a b : Endpoint}
    (hr : .colon ∉ r.head?) (hr' : .colon ∉ r'.head?)
    (h : a.tokens ++ r = b.tokens ++ r') : a.wording = b.wording ∧ r = r' := by
  cases a with
  | node a =>
      cases b with
      | node b =>
          obtain ⟨hnode, hrest⟩ := NodeRef.wording_eq_of_append hr hr' h
          exact ⟨congrArg EndWording.node hnode, hrest⟩
      | subgraph j => exact absurd h a.append_ne_subgraph
  | subgraph i =>
      cases b with
      | node b => exact absurd h.symm b.append_ne_subgraph
      | subgraph j =>
          simp only [tokens, List.cons_append, List.nil_append, List.cons.injEq, true_and] at h
          exact ⟨congrArg EndWording.subgraph (Ident.toText_eq_of_token h.1), h.2⟩

theorem NodeStmt.wording_eq_of_append {a b : NodeStmt} (h : a.tokens ++ r = b.tokens ++ r') :
    (Stmt.node a).wording = (Stmt.node b).wording ∧ r = r' := by
  simp only [tokens, List.append_assoc, List.cons_append, List.nil_append] at h
  obtain ⟨hnode, h⟩ := NodeRef.wording_eq_of_append (Attr.colon_notMem_head?_listTokens _)
    (Attr.colon_notMem_head?_listTokens _) h
  obtain ⟨hattrs, hrest⟩ := Attr.list_wording_eq_of_append_semicolon h
  exact ⟨by rw [Stmt.wording, Stmt.wording, hnode, hattrs], hrest⟩

theorem NodeStmt.append_ne_subgraph (a : NodeStmt) : a.tokens ++ r ≠ .subgraph :: r' := by
  rw [tokens, List.append_assoc, List.append_assoc]
  exact a.node.append_ne_subgraph

theorem EdgeStmt.wording_eq_of_append {a b : EdgeStmt} (h : a.tokens ++ r = b.tokens ++ r') :
    (Stmt.edge a).wording = (Stmt.edge b).wording ∧ r = r' := by
  simp only [tokens, List.append_assoc, List.cons_append, List.nil_append] at h
  obtain ⟨hsrc, h⟩ := Endpoint.wording_eq_of_append (by simp) (by simp) h
  obtain ⟨hop, h⟩ := List.cons.inj h
  injection hop with hdirected
  obtain ⟨hdst, h⟩ := Endpoint.wording_eq_of_append (Attr.colon_notMem_head?_listTokens _)
    (Attr.colon_notMem_head?_listTokens _) h
  obtain ⟨hattrs, hrest⟩ := Attr.list_wording_eq_of_append_semicolon h
  exact ⟨by rw [Stmt.wording, Stmt.wording, hsrc, hdst, hdirected, hattrs], hrest⟩

/-- No edge reads like the statement of a node: an operator follows its source. -/
theorem NodeStmt.append_ne_edge (a : NodeStmt) (b : EdgeStmt) :
    a.tokens ++ r ≠ b.tokens ++ r' := by
  intro h
  simp only [tokens, EdgeStmt.tokens, List.append_assoc, List.cons_append, List.nil_append] at h
  have h : (Endpoint.node a.node).tokens ++ (Attr.listTokens a.attrs ++ .semicolon :: r) = _ := h
  obtain ⟨-, h⟩ := Endpoint.wording_eq_of_append (Attr.colon_notMem_head?_listTokens _)
    (by simp) h
  cases hattrs : a.attrs with
  | nil => simp [hattrs, Attr.listTokens] at h
  | cons c cs => simp [hattrs, Attr.listTokens] at h

/-! ## Attribute statements -/

/-- Whether the tokens begin as an attribute statement does. -/
def Token.IsAssignment (tokens : List Token) : Prop :=
  ∃ key rest, tokens = .ident key :: .equals :: rest

theorem NodeRef.not_isAssignment {a : NodeRef} (hr : .equals ∉ r.head?) :
    ¬IsAssignment (a.tokens ++ r) := by
  rintro ⟨key, rest, h⟩
  obtain ⟨i, p⟩ := a
  cases p with
  | none =>
      have h : r = .equals :: rest := (List.cons.inj h).2
      simp [h] at hr
  | some p =>
      have h : portTokens p ++ r = .equals :: rest := (List.cons.inj h).2
      obtain ⟨text, more, hport⟩ := portTokens_append (r := r) p
      rw [hport] at h
      cases h

theorem AttrStmt.wording_eq_of_append {a b : AttrStmt} (h : a.tokens ++ r = b.tokens ++ r') :
    a.wording = b.wording ∧ r = r' := by
  have h : (Attr.mk a.key a.value).tokens ++ .semicolon :: r =
      (Attr.mk b.key b.value).tokens ++ .semicolon :: r' := h
  obtain ⟨hwording, h⟩ := Attr.wording_eq_of_append h
  exact ⟨hwording, (List.cons.inj h).2⟩

theorem AttrStmt.append_ne (a : AttrStmt) (hr' : ¬IsAssignment r') : a.tokens ++ r ≠ r' := by
  rintro rfl
  exact hr' ⟨_, _, rfl⟩

/-- The attributes of a block end where no statement of this kind follows. -/
theorem AttrStmt.map_wording_eq_of_append {as bs : List AttrStmt}
    (hr : ¬IsAssignment r) (hr' : ¬IsAssignment r')
    (h : as.flatMap tokens ++ r = bs.flatMap tokens ++ r') :
    as.map wording = bs.map wording ∧ r = r' :=
  map_eq_of_flatMap_append (¬IsAssignment ·) (fun _ _ _ _ => wording_eq_of_append)
    (fun a _ _ => a.append_ne) hr hr' h

theorem NodeStmt.not_isAssignment (a : NodeStmt) : ¬IsAssignment (a.tokens ++ r) := by
  rw [tokens, List.append_assoc, List.append_assoc]
  apply NodeRef.not_isAssignment
  cases a.attrs with
  | nil => simp [Attr.listTokens]
  | cons b bs => simp [Attr.listTokens]

theorem EdgeStmt.not_isAssignment (a : EdgeStmt) : ¬IsAssignment (a.tokens ++ r) := by
  simp only [tokens, List.append_assoc, List.cons_append]
  cases a.src with
  | node ref => exact NodeRef.not_isAssignment (by simp)
  | subgraph i =>
      rintro ⟨key, rest, h⟩
      cases h

/-! ## Statements -/

namespace Stmt

/-- Whether a statement may stand in a written document: in its blocks there are members only. -/
def IsWritten : Stmt → Prop
  | .attr _ | .node _ | .edge _ => True
  | .subgraph _ _ body => AreMembers body

theorem IsMember.isWritten {s : Stmt} (h : s.IsMember) : s.IsWritten := by
  cases s with
  | attr _ => trivial
  | node _ => trivial
  | edge _ => trivial
  | subgraph _ _ _ => exact h

theorem AreMembers.isWritten {body : List Stmt} (h : AreMembers body) :
    ∀ s ∈ body, s.IsWritten := by
  induction body with
  | nil => simp
  | cons s rest ih => exact List.forall_mem_cons.mpr ⟨h.1.isWritten, ih h.2⟩

theorem subgraph_tokens_append (id : Ident) (attrs : List AttrStmt) (body : List Stmt) :
    tokens (.subgraph id attrs body) ++ r = .subgraph :: id.token :: .openBrace ::
      (attrs.flatMap AttrStmt.tokens ++ (bodyTokens body ++ .closeBrace :: r)) := by
  simp [tokens]

/-- A statement begins with an identifier or with the keyword of subgraphs. -/
theorem exists_tokens_append (s : Stmt) :
    ∃ t rest, s.tokens ++ r = t :: rest ∧ (t = .subgraph ∨ ∃ text, t = .ident text) := by
  cases s with
  | attr a => exact ⟨_, _, rfl, .inr ⟨_, rfl⟩⟩
  | node a => exact ⟨_, _, rfl, .inr ⟨_, rfl⟩⟩
  | subgraph id attrs body => exact ⟨_, _, rfl, .inl rfl⟩
  | edge a =>
      obtain ⟨src, dst, directed, attrs⟩ := a
      cases src with
      | node ref => exact ⟨_, _, rfl, .inr ⟨_, rfl⟩⟩
      | subgraph id => exact ⟨_, _, rfl, .inl rfl⟩

theorem append_ne_closeBrace (s : Stmt) : s.tokens ++ r ≠ .closeBrace :: r' := by
  obtain ⟨t, rest, h, rfl | ⟨text, rfl⟩⟩ := s.exists_tokens_append (r := r)
  · simp [h, Token.subgraph]
  · simp [h]

theorem edgeOp_notMem_head?_bodyTokens (body : List Stmt) (directed : Bool) :
    .edgeOp directed ∉ (bodyTokens body ++ .closeBrace :: r).head? := by
  cases body with
  | nil => simp [bodyTokens]
  | cons s rest =>
      rw [bodyTokens, List.append_assoc]
      obtain ⟨t, rest, h, rfl | ⟨text, rfl⟩⟩ :=
        s.exists_tokens_append (r := bodyTokens rest ++ .closeBrace :: r)
      · simp [h, Token.subgraph]
      · simp [h]

theorem not_isAssignment_subgraph {id : Ident} {attrs : List AttrStmt} {body : List Stmt} :
    ¬IsAssignment (tokens (.subgraph id attrs body) ++ r) := by
  rintro ⟨key, rest, h⟩
  cases h

theorem not_isAssignment_of_isMember {s : Stmt} (h : s.IsMember) :
    ¬IsAssignment (s.tokens ++ r) := by
  cases s with
  | attr a => exact h.elim
  | node a => exact a.not_isAssignment
  | subgraph id attrs body => exact not_isAssignment_subgraph
  | edge a => exact h.elim

theorem not_isAssignment_bodyTokens {body : List Stmt} (h : AreMembers body) :
    ¬IsAssignment (bodyTokens body ++ .closeBrace :: r) := by
  cases body with
  | nil =>
      rintro ⟨key, rest, h⟩
      cases h
  | cons s rest =>
      rw [bodyTokens, List.append_assoc]
      exact not_isAssignment_of_isMember h.1

/-- A block does not read like the source of an edge, even if it is empty: no operator follows. -/
theorem subgraph_append_ne_edge {id : Ident} {attrs : List AttrStmt} {body : List Stmt}
    (hr : ∀ directed, .edgeOp directed ∉ r.head?) (b : EdgeStmt) :
    tokens (.subgraph id attrs body) ++ r ≠ b.tokens ++ r' := by
  intro h
  rw [subgraph_tokens_append] at h
  simp only [EdgeStmt.tokens, List.append_assoc, List.cons_append] at h
  cases hsrc : b.src with
  | node ref =>
      rw [hsrc] at h
      exact absurd h.symm ref.append_ne_subgraph
  | subgraph j =>
      simp only [hsrc, Endpoint.tokens, List.cons_append, List.nil_append, List.cons.injEq,
        true_and] at h
      have h := h.2
      cases attrs with
      | cons a attrs => simp [AttrStmt.tokens, Ident.token, quoted] at h
      | nil =>
          cases body with
          | cons s rest =>
              rw [List.flatMap_nil, List.nil_append, bodyTokens, List.append_assoc] at h
              exact s.append_ne_closeBrace h
          | nil =>
              have h : r = _ := (List.cons.inj h).2
              exact hr b.directed (by simp [h])

mutual

/-- A statement tells by its tokens what it says and where it ends, if no operator of an edge
follows it. -/
theorem wording_eq_of_append (s t : Stmt) {r r' : List Token} (hs : s.IsWritten)
    (ht : t.IsWritten) (hr : ∀ directed, .edgeOp directed ∉ r.head?)
    (hr' : ∀ directed, .edgeOp directed ∉ r'.head?)
    (h : s.tokens ++ r = t.tokens ++ r') : s.wording = t.wording ∧ r = r' :=
  match s, t with
  | .attr _, .attr _ => by
      obtain ⟨hwording, hrest⟩ := AttrStmt.wording_eq_of_append h
      exact ⟨by rw [wording, wording, hwording], hrest⟩
  | .node _, .node _ => NodeStmt.wording_eq_of_append h
  | .edge _, .edge _ => EdgeStmt.wording_eq_of_append h
  | .subgraph i as ss, .subgraph j bs ts => by
      rw [subgraph_tokens_append, subgraph_tokens_append] at h
      simp only [List.cons.injEq, true_and] at h
      obtain ⟨hid, h⟩ := h
      obtain ⟨hattrs, h⟩ := AttrStmt.map_wording_eq_of_append (not_isAssignment_bodyTokens hs)
        (not_isAssignment_bodyTokens ht) h
      obtain ⟨hbody, hrest⟩ := bodyWording_eq_of_append ss ts hs.isWritten ht.isWritten h
      exact ⟨by rw [wording, wording, Ident.toText_eq_of_token hid, hattrs, hbody], hrest⟩
  -- An attribute begins like no other statement.
  | .attr a, .node b => absurd h (a.append_ne b.not_isAssignment)
  | .attr a, .edge b => absurd h (a.append_ne b.not_isAssignment)
  | .attr a, .subgraph .. => absurd h (a.append_ne not_isAssignment_subgraph)
  | .node a, .attr b => absurd h.symm (b.append_ne a.not_isAssignment)
  | .edge a, .attr b => absurd h.symm (b.append_ne a.not_isAssignment)
  | .subgraph .., .attr b => absurd h.symm (b.append_ne not_isAssignment_subgraph)
  -- An edge shows its operator behind its source.
  | .node a, .edge b => absurd h (a.append_ne_edge b)
  | .edge a, .node b => absurd h.symm (b.append_ne_edge a)
  | .subgraph .., .edge b => absurd h (subgraph_append_ne_edge hr b)
  | .edge a, .subgraph .. => absurd h.symm (subgraph_append_ne_edge hr' a)
  -- A block begins with a keyword.
  | .node a, .subgraph .. => absurd h a.append_ne_subgraph
  | .subgraph .., .node b => absurd h.symm b.append_ne_subgraph

/-- A body tells by its tokens what it says; it ends at the closing brace. -/
theorem bodyWording_eq_of_append (ss ts : List Stmt) {r r' : List Token}
    (hss : ∀ s ∈ ss, s.IsWritten) (hts : ∀ t ∈ ts, t.IsWritten)
    (h : bodyTokens ss ++ .closeBrace :: r = bodyTokens ts ++ .closeBrace :: r') :
    bodyWording ss = bodyWording ts ∧ r = r' :=
  match ss, ts with
  | [], [] => ⟨rfl, (List.cons.inj h).2⟩
  | [], t :: ts => by
      rw [bodyTokens, bodyTokens, List.append_assoc] at h
      exact absurd h.symm t.append_ne_closeBrace
  | s :: ss, [] => by
      rw [bodyTokens, bodyTokens, List.append_assoc] at h
      exact absurd h s.append_ne_closeBrace
  | s :: ss, t :: ts => by
      rw [List.forall_mem_cons] at hss hts
      rw [bodyTokens, bodyTokens, List.append_assoc, List.append_assoc] at h
      obtain ⟨hs, h⟩ := wording_eq_of_append s t hss.1 hts.1
        (edgeOp_notMem_head?_bodyTokens ss) (edgeOp_notMem_head?_bodyTokens ts) h
      obtain ⟨hrest, htail⟩ := bodyWording_eq_of_append ss ts hss.2 hts.2 h
      exact ⟨by rw [bodyWording, bodyWording, hs, hrest], htail⟩

end

end Stmt

/-! ## Documents -/

theorem Token.kind_inj {a b : Bool} : kind a = kind b ↔ a = b := by
  cases a <;> cases b <;> simp [kind]

theorem Token.strict_ne_kind (directed : Bool) : strict ≠ kind directed := by
  cases directed <;> simp [strict, kind]

theorem Header.wording_eq_of_append {a b : Header}
    (h : a.tokens ++ .openBrace :: r = b.tokens ++ .openBrace :: r') :
    a.strict = b.strict ∧ a.directed = b.directed ∧
      a.id.map Ident.toText = b.id.map Ident.toText ∧ r = r' := by
  obtain ⟨i, directed, strict⟩ := a
  obtain ⟨j, directed', strict'⟩ := b
  have hstrict : strict = strict' := by
    cases strict <;> cases strict' <;>
      simp [tokens, strict_ne_kind, (strict_ne_kind _).symm] at h ⊢
  subst hstrict
  simp only [tokens, List.append_assoc, List.append_cancel_left_eq, List.cons_append,
    List.cons.injEq, kind_inj] at h
  obtain ⟨hdirected, h⟩ := h
  refine ⟨rfl, hdirected, ?_⟩
  cases i with
  | none =>
      cases j with
      | none => exact ⟨rfl, (List.cons.inj h).2⟩
      | some j => simp [Ident.token, quoted] at h
  | some i =>
      cases j with
      | none => simp [Ident.token, quoted] at h
      | some j =>
          obtain ⟨hid, h⟩ := List.cons.inj h
          exact ⟨congrArg some (Ident.toText_eq_of_token hid), (List.cons.inj h).2⟩

theorem Document.wording_eq_of_tokens {a b : Document} (ha : ∀ s ∈ a.stmts, s.IsWritten)
    (hb : ∀ s ∈ b.stmts, s.IsWritten) (h : a.tokens = b.tokens) : a.wording = b.wording := by
  simp only [tokens, List.append_assoc, List.cons_append] at h
  obtain ⟨hstrict, hdirected, hid, h⟩ := Header.wording_eq_of_append h
  obtain ⟨hstmts, -⟩ := Stmt.bodyWording_eq_of_append a.stmts b.stmts ha hb h
  simp only [wording, hstrict, hdirected, hid, hstmts]

/-- Documents of one text have one wording, even if they are indented differently. -/
theorem Document.wording_eq_of_toText {a b : Document} (ha : ∀ s ∈ a.stmts, s.IsWritten)
    (hb : ∀ s ∈ b.stmts, s.IsWritten) {indent indent' : String} (hindent : IsBlankIndent indent)
    (hindent' : IsBlankIndent indent') (h : a.toText indent = b.toText indent') :
    a.wording = b.wording := by
  have htokens : some a.tokens = some b.tokens := by
    rw [← (a.spells_toText hindent).lex_eq, ← (b.spells_toText hindent').lex_eq, h]
  exact wording_eq_of_tokens ha hb (Option.some.inj htokens)

/-! ## Written documents -/

namespace Graph

variable {g : Graph} {s : Settings}

theorem isWritten_of_toDocument {doc : Document} (h : g.toDocument s = .ok doc) :
    ∀ t ∈ doc.stmts, t.IsWritten := by
  obtain ⟨layout, lost, edges, rfl, -⟩ := exists_parts_of_toDocument h
  simp only [List.forall_mem_append, List.forall_mem_map]
  have hmembers : Stmt.AreMembers (Place.toStmts g layout ++ lost.map nodeStmt) :=
    Stmt.areMembers_append (Place.areMembers_toStmts g layout) (areMembers_map_nodeStmt lost)
  have hwritten := hmembers.isWritten
  rw [List.forall_mem_append, List.forall_mem_map] at hwritten
  exact ⟨⟨fun _ _ => trivial, hwritten⟩, fun _ _ => trivial⟩

/-- Two written documents have the same text exactly if they have the same wording: the same header
and the same statements in the same order and nesting, with identifiers and the pieces of ports
compared as they are written.  The graphs and their settings may differ. -/
theorem toText_eq_iff_wording_eq {g₁ g₂ : Graph} {s₁ s₂ : Settings} {d₁ d₂ : Document}
    (h₁ : g₁.toDocument s₁ = .ok d₁) (h₂ : g₂.toDocument s₂ = .ok d₂) {indent : String}
    (hindent : IsBlankIndent indent) :
    d₁.toText indent = d₂.toText indent ↔ d₁.wording = d₂.wording := by
  constructor
  · intro h
    exact Document.wording_eq_of_toText (isWritten_of_toDocument h₁) (isWritten_of_toDocument h₂)
      hindent hindent h
  · intro h
    exact Document.toText_eq_of_wording h indent

/-- A node in a block and an edge between a port and the block.  The node and the part of the port
have the given name. -/
def portOf (name : String) : Graph :=
  empty.performAll [.setName "G", .addSubgraph "G" "sub" ∅, .addNode "sub" name ∅,
    .addEdge ((Edge.between name "sub" true ∅).withPorts ("p:" ++ name) none)]

/-- The document of this graph. -/
def portOfDocument (name : String) : Document where
  header := ⟨some ⟨"G"⟩, false, false⟩
  stmts := [.subgraph ⟨"sub"⟩ [] [.node ⟨⟨⟨name⟩, none⟩, []⟩],
    .edge ⟨.node ⟨⟨name⟩, some ("p:" ++ name)⟩, .subgraph ⟨"sub"⟩, true, []⟩]

/-- A name that has to be quoted and its quoted form give documents that differ, with one text. -/
theorem portOf_wording_eq :
    ∃ d₁ d₂, (portOf "a b").toDocument {} = .ok d₁ ∧ (portOf "\"a b\"").toDocument {} = .ok d₂ ∧
      IsBlankIndent defaultIndent ∧ d₁ ≠ d₂ ∧ d₁.wording = d₂.wording := by
  have hindent : IsBlankIndent defaultIndent := by decide
  have h₁ : (portOf "a b").toDocument {} = .ok (portOfDocument "a b") := by decide +kernel
  have h₂ : (portOf "\"a b\"").toDocument {} = .ok (portOfDocument "\"a b\"") := by decide +kernel
  have htext : (portOfDocument "a b").toText defaultIndent =
      (portOfDocument "\"a b\"").toText defaultIndent := by decide +kernel
  exact ⟨_, _, h₁, h₂, hindent, by decide, (toText_eq_iff_wording_eq h₁ h₂ hindent).mp htext⟩

end Graph

end DotModel
