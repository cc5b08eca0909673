/-
# The files of the disk manager

`src/storage/disk.rs`, all of it: pages are read and written at offsets of the files under the base path,
one file for each `FileId`, named by the id and the type that was registered for it.  A file is opened at
its first use and stays open; its type is not looked at again.

`new_page` is that of `Abdb.Directory.NewPage`.  Of the errors of the operating system there is the end of
a file, and no other.
-/

import Abdb.Buffer.Pool
import Abdb.Directory.NewPage
import Abdb.Lib.Files

namespace Abdb

open Directory Lib

/-- The bytes of a page. -/
abbrev PageData := List.Vector UInt8 pageBufSize

/-- `FileType`. -/
inductive FileType
  | heap | index | directory
deriving DecidableEq, Repr

/-- `FileType::extension`. -/
def FileType.extension : FileType → String
  | .heap => "heap"
  | .index => "idx"
  | .directory => "dir"

/-- `DiskError`, with the one I/O error that reading has of itself. -/
inductive PageIoError
  | unexpectedEof
  | disk (e : DiskError)

/-- `DiskManagerImpl`, all of it, with the files under its base path. -/
structure DiskFiles extends DiskManagerImpl where
  files : String → Option (List UInt8)
  fileHandles : FileId → Option String
  fileTypes : FileId → Option FileType

/-- The calls of the trait `DiskManager`, and a stop and a start of the server, which then registers files. -/
inductive DiskCall
  | newPage (fileId : FileId)
  | readPage (id : LPageId)
  | writePage (id : LPageId) (buffer : PageData)
  | readPageAtLoc (loc : PPageId)
  | writePageAtLoc (loc : PPageId) (buffer : PageData)
  | restart (types : FileId → Option FileType)

/-- What a call returns if it succeeds. -/
inductive DiskReply
  | created (id : LPageId) (loc : PPageId)
  | page (loc : PPageId) (buffer : PageData)
  | buffer (buffer : PageData)
  | unit

/-- What a call returns. -/
abbrev DiskResult := Except PageIoError DiskReply

/-- `file_path`, below the base path. -/
def filePath (fileId : FileId) (fileType : FileType) : String := toString fileId ++ "." ++ fileType.extension

/-- The file of the page directory, under the same base path. -/
def directoryPath : String := "page.dir"

namespace DiskFiles

variable (s : DiskFiles)

/-- `register_file`. -/
def registerFile (fileId : FileId) (fileType : FileType) : DiskFiles :=
  { s with fileTypes := Function.update s.fileTypes fileId (some fileType) }

/-- `get_file`: the open file of an id; a file that is not there is made. -/
def getFile (fileId : FileId) : DiskFiles × String :=
  match s.fileHandles fileId with
  | some path => (s, path)
  | none =>
    let path := filePath fileId ((s.fileTypes fileId).getD .heap)
    ({ s with
        files := Function.update s.files path (some ((s.files path).getD []))
        fileHandles := Function.update s.fileHandles fileId (some path) }, path)

/-- `read_page_at_loc`. -/
def readPageAtLoc (loc : PPageId) : DiskFiles × Except PageIoError PageData :=
  let (s, path) := s.getFile loc.file
  match readExactAt ((s.files path).getD []) pageBufSize loc.offset with
  | some buffer => (s, .ok buffer)
  | none => (s, .error .unexpectedEof)

/-- `write_page_at_loc`. -/
def writePageAtLoc (loc : PPageId) (buffer : PageData) : DiskFiles :=
  let (s, path) := s.getFile loc.file
  { s with
    files := Function.update s.files path (some (writeAllAt 0 ((s.files path).getD []) buffer.toList loc.offset)) }

/-- A lookup in the page directory. -/
def Lookup (id : LPageId) (s' : DiskFiles) (r : Except Directory.Error PPageId) : Prop :=
  ∃ d res, Exec s.pageDirectory (.lookup id) d res ∧ s' = { s with pageDirectory := d } ∧
    match res with
    | .ok (.found loc) => r = .ok loc
    | .ok .unit => False
    | .error e => r = .error e

/-- What `TcpServer::new` sets up over an open directory and the files there are, with files registered. -/
def setUp (types : FileId → Option FileType) (files : String → Option (List UInt8)) (d : BTreePageDirectory) :
    DiskFiles where
  toDiskManagerImpl := .setUp d
  files := files
  fileHandles _ := none
  fileTypes := types

/-- A new server has no file registered; one after the other gives any types. -/
theorem registerFile_setUp {types : FileId → Option FileType} {files : String → Option (List UInt8)}
    {d : BTreePageDirectory} (f : FileId) (t : FileType) :
    (setUp types files d).registerFile f t = setUp (Function.update types f (some t)) files d := rfl

/-- **One call**, from start to result. -/
inductive Exec : DiskFiles → DiskCall → DiskFiles → DiskResult → Prop
  | newPage {s : DiskFiles} {fileId : FileId} {impl : DiskManagerImpl} {r : Except DiskError (LPageId × PPageId)} :
    s.NewPage fileId impl r → Exec s (.newPage fileId) { s with toDiskManagerImpl := impl }
      (match r with
      | .ok (id, loc) => .ok (.created id loc)
      | .error e => .error (.disk e))
  | readPage {s s' : DiskFiles} {id : LPageId} {loc : PPageId} : s.Lookup id s' (.ok loc) →
    Exec s (.readPage id) (s'.readPageAtLoc loc).1 ((s'.readPageAtLoc loc).2.map (.page loc))
  | writePage {s s' : DiskFiles} {id : LPageId} {loc : PPageId} {buffer : PageData} : s.Lookup id s' (.ok loc) →
    Exec s (.writePage id buffer) (s'.writePageAtLoc loc buffer) (.ok .unit)
  | readMissing {s s' : DiskFiles} {id : LPageId} {e : Directory.Error} : s.Lookup id s' (.error e) →
    Exec s (.readPage id) s' (.error (.disk (.directoryError e)))
  | writeMissing {s s' : DiskFiles} {id : LPageId} {buffer : PageData} {e : Directory.Error} :
    s.Lookup id s' (.error e) → Exec s (.writePage id buffer) s' (.error (.disk (.directoryError e)))
  | readPageAtLoc {s : DiskFiles} {loc : PPageId} :
    Exec s (.readPageAtLoc loc) (s.readPageAtLoc loc).1 ((s.readPageAtLoc loc).2.map .buffer)
  | writePageAtLoc {s : DiskFiles} {loc : PPageId} {buffer : PageData} :
    Exec s (.writePageAtLoc loc buffer) (s.writePageAtLoc loc buffer) (.ok .unit)
  | restart {s : DiskFiles} {types : FileId → Option FileType} {d : BTreePageDirectory} :
    s.pageDirectory.reopen = .ok d → Exec s (.restart types) (setUp types s.files d) (.ok .unit)

/-- Calls one after the other, with their results. -/
inductive Trace : DiskFiles → List (DiskCall × DiskResult) → DiskFiles → Prop
  | nil (s : DiskFiles) : Trace s [] s
  | cons {s s₁ s' : DiskFiles} {c : DiskCall} {r : DiskResult} {l : List (DiskCall × DiskResult)} :
    Exec s c s₁ r → Trace s₁ l s' → Trace s ((c, r) :: l) s'

end DiskFiles

/-! ### Names of files -/

theorem toList_filePath (f : FileId) (t : FileType) :
    (filePath f t).toList = Nat.toDigits 10 f ++ '.' :: t.extension.toList := by
  rw [filePath, String.toList_append, String.toList_append, List.append_assoc]
  exact congrArg (· ++ _) Nat.toList_repr

/-- The digits of a number have no dot. -/
theorem ne_dot_of_mem_toDigits {f : FileId} {c : Char} (h : c ∈ Nat.toDigits 10 f) : c ≠ '.' := by
  rintro rfl
  exact absurd (Nat.isDigit_of_mem_toDigits (by decide) (by decide) h) (by decide)

/-- **A name belongs to one file**, whatever the types. -/
theorem filePath_injective {f f' : FileId} {t t' : FileType} (h : filePath f t = filePath f' t') : f = f' := by
  have hdigits : ∀ (f : FileId) (t : FileType),
      (filePath f t).toList.takeWhile (· != '.') = Nat.toDigits 10 f := by
    intro f t
    rw [toList_filePath, List.takeWhile_append_of_pos fun c hc => bne_iff_ne.2 (ne_dot_of_mem_toDigits hc)]
    exact List.append_nil _
  have heq : Nat.toDigits 10 f = Nat.toDigits 10 f' := by rw [← hdigits f t, h, hdigits]
  rw [← Nat.ofDigitChars_ten_toDigits (n := f), heq, Nat.ofDigitChars_ten_toDigits]

/-- No file of pages is that of the directory. -/
theorem filePath_ne_directoryPath (f : FileId) (t : FileType) : filePath f t ≠ directoryPath := by
  intro h
  have hlist := toList_filePath f t
  rw [h] at hlist
  cases hdigits : Nat.toDigits 10 f with
  | nil => exact Nat.toDigits_ne_nil hdigits
  | cons c cs =>
    rw [hdigits] at hlist
    have hc : c ∈ Nat.toDigits 10 f := hdigits ▸ List.mem_cons_self
    obtain ⟨rfl, -⟩ := List.cons.inj hlist
    exact absurd (Nat.isDigit_of_mem_toDigits (by decide) (by decide) hc) (by decide)

end Abdb
