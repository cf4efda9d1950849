import LoopInduction.Config.Text
import LoopInduction.Functions.Json

/-!
# Reading from files

Files are looked up by a path in a tree of directories; a path may go up again by `..`. Settings may
be asked for by the directory that holds them. What is missing, a directory or not UTF-8 cannot be
read.
-/

namespace LoopInduction

/-- A file or a directory. -/
inductive FileTree
  | file (content : ByteArray)
  | directory (entries : List (String × FileTree))

namespace FileTree

/-- What a path leads to from some place, the directories above it being given, nearest first. An
empty step and the step `.` stay, and so does a step up from the top; but every step starts at a
directory. -/
def follow (above : List FileTree) : FileTree → List String → Option FileTree
  | t, [] => some t
  | file _, _ :: _ => none
  | directory entries, name :: path =>
    if name = "" ∨ name = "." then follow above (directory entries) path
    else if name = ".." then
      match above with
      | [] => follow [] (directory entries) path
      | parent :: above => follow above parent path
    else match entries.lookup name with
      | some t => follow (directory entries :: above) t path
      | none => none
termination_by _ path => path.length

/-- What a path leads to from the top. -/
def find? (t : FileTree) (path : List String) : Option FileTree :=
  follow [] t path

/-- The last step of a path that is not empty and does not stay: the name of what the path leads to,
unless it goes up. -/
def name? (path : List String) : Option String :=
  match (path.filter fun s ↦ s ≠ "" ∧ s ≠ ".").getLast? with
  | some ".." => none
  | name => name

/-- Whether a path leads to a directory. -/
def isDirectory (t : FileTree) (path : List String) : Bool :=
  match t.find? path with
  | some (directory _) => true
  | _ => false

/-- The text of a file. -/
def text (t : FileTree) (path : List String) : Except ReadFault String :=
  match t.find? path with
  | some (file content) => match String.fromUTF8? content with
    | some text => .ok text
    | none => .error (.unreadable path)
  | _ => .error (.unreadable path)

end FileTree

/-- The name of the file that holds the settings of a directory. -/
def Config.fileName : String := "k_induction.toml"

/-- Reads the settings from a file, or from the settings file of a directory. -/
def Config.ofFile (t : FileTree) (path : List String) : Except ReadFault Config := do
  let text ← t.text (if t.isDirectory path then path ++ [Config.fileName] else path)
  Config.ofText text

/-- Reads a whole program from a file. -/
def Functions.ofFile (t : FileTree) (path : List String) : Except ReadFault Functions := do
  let text ← t.text path
  Functions.ofJsonText text

end LoopInduction
