import DotModel.Document.Wording

/-!
# The wording fixes the text

Documents with the same wording have the same text for every indentation.  This holds of any
documents; that nothing else has the same text is a matter of what can be read back from it.
-/

namespace DotModel

theorem Attr.listToText_eq_of_wording {as bs : List Attr} (h : as.map wording = bs.map wording) :
    listToText as = listToText bs := by
  have htexts := congrArg (List.map fun w : String × String => w.1 ++ "=" ++ w.2) h
  rw [List.map_map, List.map_map] at htexts
  have htexts : as.map toText = bs.map toText := htexts
  cases as with
  | nil =>
      cases bs with
      | nil => rfl
      | cons b bs => cases h
  | cons a as =>
      cases bs with
      | nil => cases h
      | cons b bs => simp only [listToText, htexts]

theorem AttrStmt.toText_eq (a : AttrStmt) : a.toText = a.wording.1 ++ "=" ++ a.wording.2 := rfl

theorem AttrStmt.stmtLines_eq_of_wording {as bs : List AttrStmt}
    (h : as.map wording = bs.map wording) (indent : String) (level : Nat) :
    (as.map fun a => stmtLine indent level a.toText) =
      bs.map fun b => stmtLine indent level b.toText := by
  have hlines := congrArg (List.map fun w : String × String =>
    stmtLine indent level (w.1 ++ "=" ++ w.2)) h
  rw [List.map_map, List.map_map] at hlines
  exact hlines

theorem NodeRef.toText_eq (a : NodeRef) :
    a.toText = a.wording.id ++
      (a.wording.port.map fun pieces => String.join (pieces.map (":" ++ ·))).getD "" := by
  cases hport : a.port with
  | none => simp [toText, wording, hport]
  | some port => simp [toText, wording, hport, portToText, portWording, Function.comp_def]

theorem Endpoint.toText_eq_of_wording {a b : Endpoint} (h : a.wording = b.wording) :
    a.toText = b.toText := by
  cases a with
  | node a =>
      cases b with
      | node b =>
          injection h with h
          rw [toText, toText, a.toText_eq, b.toText_eq, h]
      | subgraph j => cases h
  | subgraph i =>
      cases b with
      | node b => cases h
      | subgraph j =>
          injection h with h
          rw [toText, toText, h]

namespace Stmt

mutual

theorem toText_eq_of_wording (s t : Stmt) (h : s.wording = t.wording) (indent : String)
    (level : Nat) : toText indent level s = toText indent level t :=
  match s, t with
  | .attr a, .attr b => by
      injection h with h
      rw [toText, toText, a.toText_eq, b.toText_eq, h]
  | .node a, .node b => by
      injection h with hnode hattrs
      rw [toText, toText, NodeStmt.toText, NodeStmt.toText, a.node.toText_eq, b.node.toText_eq,
        hnode, Attr.listToText_eq_of_wording hattrs]
  | .edge a, .edge b => by
      injection h with hsrc hdst hdirected hattrs
      rw [toText, toText, EdgeStmt.toText, EdgeStmt.toText, Endpoint.toText_eq_of_wording hsrc,
        Endpoint.toText_eq_of_wording hdst, hdirected, Attr.listToText_eq_of_wording hattrs]
  | .subgraph _ _ ss, .subgraph _ _ ts => by
      injection h with hid hattrs hbody
      rw [toText, toText, hid, AttrStmt.stmtLines_eq_of_wording hattrs,
        bodyToText_eq_of_wording ss ts hbody]
  | .attr _, .node _ | .attr _, .subgraph .. | .attr _, .edge _
  | .node _, .attr _ | .node _, .subgraph .. | .node _, .edge _
  | .subgraph .., .attr _ | .subgraph .., .node _ | .subgraph .., .edge _
  | .edge _, .attr _ | .edge _, .node _ | .edge _, .subgraph .. => by simp [wording] at h

theorem bodyToText_eq_of_wording (ss ts : List Stmt) (h : bodyWording ss = bodyWording ts)
    (indent : String) (level : Nat) : bodyToText indent level ss = bodyToText indent level ts :=
  match ss, ts with
  | [], [] => rfl
  | [], _ :: _ | _ :: _, [] => by simp [bodyWording] at h
  | s :: ss, t :: ts => by
      injection h with hs hrest
      rw [bodyToText, bodyToText, toText_eq_of_wording s t hs, bodyToText_eq_of_wording ss ts hrest]

end

end Stmt

theorem Header.toText_eq (a : Header) :
    a.toText = (if a.strict then "strict " else "") ++
      (if a.directed then "digraph" else "graph") ++ ((a.id.map Ident.toText).map (" " ++ ·)).getD "" := by
  rw [toText, Option.map_map]
  rfl

theorem Document.toText_eq_of_wording {a b : Document} (h : a.wording = b.wording)
    (indent : String) : a.toText indent = b.toText indent := by
  injection h with hstrict hdirected hid hstmts
  rw [toText, toText, a.header.toText_eq, b.header.toText_eq, hstrict, hdirected, hid,
    Stmt.bodyToText_eq_of_wording _ _ hstmts]

end DotModel
