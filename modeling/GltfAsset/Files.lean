import GltfAsset.Check.Document
import GltfAsset.Container.Pack
import GltfAsset.Container.Unpack
import GltfAsset.Error

/-!
# Assets in files

An asset is kept as the text of its document or as a container. `load` tells the two apart by what
is in the file, `save` chooses by the end of the file's name. A `Directory` is what a program sees
of the files, as a value: an operation that changes files gives the directory after it.
-/

namespace GltfAsset

/-! ### Formats -/

/-- The formats of files. -/
inductive FileFormat where
  /-- Neither of the others. -/
  | unknown
  /-- The text of a document. -/
  | gltf
  /-- A container. -/
  | glb
deriving DecidableEq, Repr

/-- The part of a name after its last point, if it has one. -/
def extension? (name : List Char) : Option (List Char) :=
  if '.' ∈ name then some (name.reverse.takeWhile (· ≠ '.')).reverse else none

/-- The format that a name asks for, in any case of its letters. -/
def FileFormat.ofName (name : String) : FileFormat :=
  match extension? name.toList with
  | none => unknown
  | some e =>
    let e := e.map Char.toLower
    if e = "gltf".toList then gltf else if e = "glb".toList then glb else unknown

/-! ### Reading what is at hand -/

/-- The asset in a file that is at hand. What does not start as a container does is the text of a
document. -/
def load (b : Bytes) : Except Error Container.Contents :=
  if (Container.recognize (⟨b, 0⟩ : Slice)).1 then
    (Container.unpack b).mapError (·.toError)
  else
    match Document.decode b with
    | .ok d => .ok ⟨d, [], none⟩
    | .error e => .error (.transcoding e)

/-! ### Directories -/

/-- Files by their names. -/
structure Directory where
  /-- The folders that are there; a name without a folder needs none. -/
  folders : List String := []
  /-- The files, each with its name and what is in it. -/
  files : List (String × Bytes) := []
deriving DecidableEq, Repr

namespace Directory

/-- The name under which a file is kept: steps to the folder in which one already is are left out at
its start. -/
def resolve (name : String) : String :=
  match name.splitOn "/" with
  | "." :: steps => "/".intercalate (steps.dropWhile fun s => s = "." || s = "")
  | _ => name

/-- The character that ends a name, so that none has it inside. -/
def terminator : Char := Char.ofNat 0

/-- What is in the file of the given name. -/
def read (name : String) (dir : Directory) : Except Failure Bytes :=
  if terminator ∈ name.toList then .error ⟨.invalidInput, none⟩
  else
    match dir.files.lookup (resolve name) with
    | some b => .ok b
    | none => .error ⟨.notFound, none⟩

/-- Puts bytes into a list of files, in the place of the file if it is there. -/
def putFile (name : String) (b : Bytes) : List (String × Bytes) → List (String × Bytes)
  | [] => [(name, b)]
  | (k, c) :: fs => if k = name then (k, b) :: fs else (k, c) :: putFile name b fs

/-- The folder that a name names, if it does. -/
def folder? (name : String) : Option String :=
  let cs := name.toList
  if '/' ∈ cs then some (String.ofList ((cs.reverse.dropWhile (· ≠ '/')).drop 1).reverse) else none

/-- A name that can be used: it is not empty, and its folder is there. -/
def Admits (dir : Directory) (name : String) : Prop :=
  name ≠ "" ∧ ∀ f ∈ folder? name, f ∈ dir.folders

instance (dir : Directory) (name : String) : Decidable (dir.Admits name) :=
  inferInstanceAs (Decidable (_ ∧ _))

/-- Makes what is in a file equal to the given bytes. -/
def write (name : String) (b : Bytes) (dir : Directory) : Except Failure Unit × Directory :=
  if terminator ∈ name.toList then (.error ⟨.invalidInput, none⟩, dir)
  else if dir.Admits (resolve name) then
    (.ok (), { dir with files := putFile (resolve name) b dir.files })
  else (.error ⟨.notFound, none⟩, dir)

/-- The bytes that a file is read ahead. -/
def readAhead : Nat := 8192

/-- Reads the asset in a file. The start of the file is looked at first; then the file is read from
its start through a buffer. -/
def load (name : String) (dir : Directory) : Except Error Container.Contents :=
  match dir.read name with
  | .error f => .error (.transport f)
  | .ok b =>
    let file : Buffered := { content := b, capacityPred := readAhead - 1 }
    if (Container.recognize (⟨b, 0⟩ : Cursor)).1 then
      ((Container.unpackFrom .truncateToDeclared).run.run file).1.mapError (·.toError)
    else
      match (Document.readFrom file).1 with
      | .ok d => .ok ⟨d, [], none⟩
      | .error e => .error e.toError

/-- Reads the asset in a file and refuses a document that breaks a rule. -/
def loadChecked (name : String) (dir : Directory) : Except Error Container.Contents := do
  let c ← dir.load name
  match c.document.violation? {} with
  | none => return c
  | some v => throw (.malformedDocument v)

/-- Refuses what cannot be saved under a name. -/
def refuse (text : String) : Error := .transport ⟨.invalidInput, some text⟩

/-- Saves a document and its bytes in the format that the name asks for. A text has no place for
bytes. A container is written into a file that is made first. -/
def save (name : String) (d : Document) (bin : Bytes) (dir : Directory) :
    Except Error Unit × Directory :=
  match FileFormat.ofName name with
  | .unknown => (.error (refuse (name ++ ": unknown output file format")), dir)
  | .gltf =>
    if bin ≠ [] then
      (.error (refuse (name ++
        s!": a .gltf file cannot embed a {bin.length} byte binary buffer, use .glb")), dir)
    else
      let (r, dir) := dir.write name (d.encode .indented)
      (r.mapError .transport, dir)
  | .glb =>
    match dir.write name [] with
    | (.error e, dir) => (.error (.transport e), dir)
    | (.ok (), made) =>
      match Container.pack d bin with
      | .error e => (.error e.toError, made)
      | .ok b =>
        let (r, dir) := dir.write name b
        (r.mapError .transport, dir)

end Directory

end GltfAsset
