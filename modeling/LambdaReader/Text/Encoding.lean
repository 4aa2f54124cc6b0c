/-!
# `Text.Encoding` — from the bytes of a file to its text

Bytes are read as UTF-8 and refused as a whole if any part of them is not; a byte order mark is an
ordinary character of the text. Every line ends in a line feed: a carriage return, alone or before a
line feed, is read as one.

## Contents
- `unifyLineEnds` and its laws;
- `ofBytes?`, the text of a file.
-/

namespace LambdaReader
namespace Text

/-- Every line end becomes one line feed. -/
def unifyLineEnds : List Char → List Char
  | [] => []
  | '\r' :: '\n' :: rest => '\n' :: unifyLineEnds rest
  | '\r' :: rest => '\n' :: unifyLineEnds rest
  | c :: rest => c :: unifyLineEnds rest

/-- No carriage return is left. -/
theorem return_not_mem_unifyLineEnds (cs : List Char) : '\r' ∉ unifyLineEnds cs := by
  fun_induction unifyLineEnds cs with
  | case1 => simp
  | case2 rest ih => simp [ih]
  | case3 rest _ ih => simp [ih]
  | case4 c rest _ hc ih =>
    simp only [List.mem_cons, not_or]
    exact ⟨fun h => hc h.symm, ih⟩

/-- Text without carriage returns is kept as it is. -/
theorem unifyLineEnds_eq_self {cs : List Char} (h : '\r' ∉ cs) : unifyLineEnds cs = cs := by
  fun_induction unifyLineEnds cs with
  | case1 => rfl
  | case2 rest ih => simp at h
  | case3 rest _ ih => simp at h
  | case4 c rest _ hc ih => simp_all

/-- The text of a file's bytes; none if they are not UTF-8. -/
def ofBytes? (bytes : ByteArray) : Option String :=
  (String.fromUTF8? bytes).map fun s => String.ofList (unifyLineEnds s.toList)

end Text
end LambdaReader
