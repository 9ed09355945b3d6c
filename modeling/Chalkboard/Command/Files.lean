/-! # Files

What the command finds under a path. A path is walked name by name from the directory the command is
run in, or from the root. A program that does not live in a real file system can be given one made
of names and contents; the rest of it is as bare as such a system can be.
-/

namespace Chalkboard.Command

inductive ReadError where
  | missing
  | notDirectory
  | isDirectory
  | nameTooLong
  | notUtf8
  | other (reason : String)

def ReadError.message : ReadError → String
  | missing => "No such file or directory (os error 2)"
  | notDirectory => "Not a directory (os error 20)"
  | isDirectory => "Is a directory (os error 21)"
  | nameTooLong => "File name too long (os error 36)"
  | notUtf8 => "stream did not contain valid UTF-8"
  | other reason => reason

def decode (data : ByteArray) : Except ReadError String :=
  match String.fromUTF8? data with
  | some s => .ok s
  | none => .error .notUtf8

inductive Contents where
  | bytes (data : ByteArray)
  | standardInput
  | unreadable (e : ReadError)

/-- The text under a path, where `stdin` is left of standard input. -/
def Contents.text (stdin : ByteArray) : Contents → Except ReadError String
  | bytes data => decode data
  | standardInput => decode stdin
  | unreadable e => .error e

abbrev Files := String → Contents

/-- Where a walk along a path stands. -/
inductive Place where
  /-- A directory in or below the one the command is run in, by the names that lead there from it,
  the last one first. -/
  | inside (names : List String)
  | above
  | root
  | top (name : String)
  | file (contents : Contents)

namespace Place

def topNames : List String :=
  ["bin", "boot", "dev", "etc", "home", "lib", "media", "mnt", "opt", "proc", "root", "run", "sbin",
    "srv", "sys", "tmp", "usr", "var"]

def nameLimit : Nat := 255

def pathLimit : Nat := 4095

def parent : Place → Place
  | inside [] => above
  | inside (_ :: names) => inside names
  | above => above
  | _ => root

def child? (entries : List (String × ByteArray)) (name : String) : Place → Option Place
  | inside names =>
    let path := String.intercalate "/" (name :: names).reverse
    match entries.lookup path with
    | some data => some (file (.bytes data))
    | none =>
      if entries.any (·.1.startsWith (path ++ "/")) then some (inside (name :: names)) else none
  | root => if name ∈ topNames then some (top name) else none
  | top "dev" =>
    match name with
    | "null" => some (file (.bytes .empty))
    | "stdin" => some (file .standardInput)
    | _ => none
  | _ => none

/-- Go on by one name. Empty names and single dots stay in their directory. -/
def enter (entries : List (String × ByteArray)) (place : Place) (name : String) :
    Except ReadError Place :=
  match place with
  | file _ => .error .notDirectory
  | place =>
    if name = "" ∨ name = "." then .ok place
    else if name = ".." then .ok place.parent
    else if nameLimit < name.utf8ByteSize then .error .nameTooLong
    else match place.child? entries name with
      | some place => .ok place
      | none => .error .missing

def contents : Place → Contents
  | file c => c
  | _ => .unreadable .isDirectory

end Place

/-- A directory that holds these files, in a file system with nothing else to read. -/
def Files.ofList (entries : List (String × ByteArray)) : Files := fun path =>
  if Place.pathLimit < path.utf8ByteSize then .unreadable .nameTooLong
  else
    let start := if path.startsWith "/" then .root else .inside []
    match (path.splitOn "/").foldlM (Place.enter entries) start with
    | .ok place => place.contents
    | .error e => .unreadable e

end Chalkboard.Command
