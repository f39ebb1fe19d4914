/-!
# Pieces

The parts of a text between the occurrences of a separator.
-/

namespace DotModel.Text

/-- The parts between the separators: always one more than there are separators. -/
def pieces (separator : Char) : List Char → List (List Char)
  | [] => [[]]
  | c :: rest =>
    if c = separator then [] :: pieces separator rest
    else
      match pieces separator rest with
      | [] => [[c]]
      | piece :: more => (c :: piece) :: more

theorem length_pieces (separator : Char) (text : List Char) :
    (pieces separator text).length = text.count separator + 1 := by
  fun_induction pieces separator text with
  | case1 => rfl
  | case2 rest ih => simp [ih]
  | case3 c rest hc h ih => simp [h] at ih
  | case4 c rest hc piece more h ih =>
    rw [h] at ih
    simpa [List.count_cons, hc] using ih

end DotModel.Text
