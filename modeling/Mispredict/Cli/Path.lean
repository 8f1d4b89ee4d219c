/-
  Paths of files as text.
-/

namespace Mispredict.Cli.Path

/-- A path of a file in a directory. -/
def join (dir name : String) : String :=
  if dir.toList.getLast? == some '/' then dir ++ name else dir ++ "/" ++ name

/-- What stands before and after the last dot of a name. A dot at the start of a name does not
    count. -/
def splitExtension (name : String) : String × Option String :=
  let after := name.toList.reverse.takeWhile (· != '.')
  match name.toList.reverse.dropWhile (· != '.') with
  | '.' :: before =>
    if before.isEmpty then (name, none)
    else (String.ofList before.reverse, some (String.ofList after.reverse))
  | _ => (name, none)

/-- The part of a name after its last dot. -/
def extension? (name : String) : Option String := (splitExtension name).2

/-- The part of a name before its last dot. -/
def stem (name : String) : String := (splitExtension name).1

/-- Drops from the end of a path, which is in reverse, what adds no name to it. -/
def dropIdle : List Char → List Char
  | '/' :: rest => dropIdle rest
  | '.' :: '/' :: rest => dropIdle rest
  | path => path

/-- The path of the directory in which the last name on a path stands. -/
def parent (path : String) : String :=
  let above := ((dropIdle path.toList.reverse).drop 1).dropWhile (· != '/')
  String.ofList (dropIdle above).reverse

theorem length_dropIdle_le (path : List Char) : (dropIdle path).length ≤ path.length := by
  fun_induction dropIdle path <;> simp <;> omega

theorem length_parent_lt {path : String} (h : path ≠ "") :
    (parent path).toList.length < path.toList.length := by
  have hpath : 0 < path.toList.length := by
    rw [String.length_toList]
    exact Nat.pos_of_ne_zero fun h' => h (String.length_eq_zero_iff.1 h')
  have h₁ := length_dropIdle_le path.toList.reverse
  have h₂ := (List.dropWhile_sublist (· != '/')
    (l := (dropIdle path.toList.reverse).drop 1)).length_le
  have h₃ := length_dropIdle_le
    (((dropIdle path.toList.reverse).drop 1).dropWhile (· != '/'))
  rw [parent, String.toList_ofList, List.length_reverse]
  rw [List.length_reverse] at h₁
  rw [List.length_drop] at h₂
  omega

/-- The path with another extension of the last name on it. A path that ends by going up has no such
    name and stays as it is. -/
def withExtension (path extension : String) : String :=
  let kept := dropIdle path.toList.reverse
  let name := String.ofList (kept.takeWhile (· != '/')).reverse
  let parent := String.ofList (kept.dropWhile (· != '/')).reverse
  if name.isEmpty || name == "." || name == ".." then path
  else parent ++ stem name ++ "." ++ extension

end Mispredict.Cli.Path
