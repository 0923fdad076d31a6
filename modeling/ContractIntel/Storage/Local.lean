import ContractIntel.Store.System
import Mathlib.Logic.Function.Basic

/-!
# Local storage (`app/storage/local.py`)

The data directory as the file system keeps it: a directory for each tenant, in it names, each the
name of a file. A document lies under its content hash, a document being saved under a name that
`mkstemp` draws. A file without a name is still there for who has it open.

`save_document`, `delete_document` and `Path.read_bytes` take many file system calls, and between two
of them any other thread may act. Each thread has one file in hand at most: the temporary file it
writes, or the one it reads. `os.fdopen` does not fail here.

`onDisk` puts these programs in the place of the store's operations on files.
-/

namespace ContractIntel.Storage

open Parsing (Bytes)

inductive Name where
  | stored (sha256 : Str)
  | temp (drawn : Str)
  deriving DecidableEq

structure Disk where
  dirs : Uuid → Bool
  entries : Uuid → Name → Option Nat
  data : Nat → Bytes
  /-- No file has this number, or a higher one, yet. -/
  next : Nat

/-- What a thread has in hand. -/
inductive Handle where
  | none
  /-- `fd, tmp_path` of `mkstemp`. -/
  | temp (tenantId : Uuid) (drawn : Str) (file : Nat)
  | reading (file offset : Nat)
  deriving DecidableEq

/-- `FileNotFoundError` is told from the other exceptions. -/
inductive Raised where
  | fileNotFound (message : Str)
  | exn (e : Exn)

def Raised.toExn : Raised → Exn
  | .fileNotFound message => .osError message
  | .exn e => e

inductive FileOp where
  | makeDir (tenantId : Uuid)
  | makeTemp (tenantId : Uuid)
  | write (bytes : Bytes)
  | close
  | replace (tenantId : Uuid) (sha256 : Str)
  | unlinkTemp
  | unlink (tenantId : Uuid) (sha256 : Str)
  | openRead (tenantId : Uuid) (sha256 : Str)
  | fileSize
  | read
  | isFile (tenantId : Uuid) (sha256 : Str)

abbrev FileOp.Res : FileOp → Type
  | .write _ | .fileSize => Nat
  | .read => Bytes
  | .isFile .. => Bool
  | _ => Unit

/-- What the world contributes: to a file system call, the names `mkstemp` tries and how many bytes a
write takes or a read gives, less one. -/
structure DiskAnswer extends Answer where
  drawn : List Str := []
  count : Nat := 0

namespace Disk

/-- A name is given to a file, or taken away. -/
def setEntry (tenantId : Uuid) (name : Name) (file : Option Nat) (d : Disk) : Disk :=
  { d with entries := fun tenant n =>
      if tenant = tenantId ∧ n = name then file else d.entries tenant n }

def setData (file : Nat) (bytes : Bytes) (d : Disk) : Disk :=
  { d with data := Function.update d.data file bytes }

/-- A new empty file. -/
def create (tenantId : Uuid) (name : Name) (d : Disk) : Disk :=
  { (d.setEntry tenantId name (some d.next)).setData d.next [] with next := d.next + 1 }

/-- The documents that are there. -/
def files (d : Disk) (tenantId : Uuid) (sha256 : Str) : Option Bytes :=
  (d.entries tenantId (.stored sha256)).map d.data

end Disk

def badDescriptor : Raised := .exn (.osError "[Errno 9] Bad file descriptor".toList)

def noTempName : Raised :=
  .exn (.osError "[Errno 17] No usable temporary file name found".toList)

abbrev FileOutcome (α : Type) := Except Raised α × Handle × Disk

/-- A call that the file system may refuse. -/
def refusable {α : Type} (body : FileOutcome α) (a : DiskAnswer) (h : Handle) (d : Disk) :
    FileOutcome α :=
  match a.refusal with
  | some reason => (.error (.exn (.osError reason)), h, d)
  | none => body

/-- What a file system call does. -/
def fileExec (o : FileOp) (a : DiskAnswer) (h : Handle) (d : Disk) : FileOutcome o.Res :=
  match o with
  | .makeDir tenantId =>
    refusable (.ok (), h, { d with dirs := Function.update d.dirs tenantId true }) a h d
  | .makeTemp tenantId =>
    refusable
      (if d.dirs tenantId then
        match a.drawn.find? fun drawn => (d.entries tenantId (.temp drawn)).isNone with
        | some drawn => (.ok (), .temp tenantId drawn d.next, d.create tenantId (.temp drawn))
        | none => (.error noTempName, h, d)
      else (.error (.fileNotFound (Store.missingFileMessage tenantId (a.drawn.headD []))), h, d))
      a h d
  | .write bytes =>
    refusable
      (match h with
      | .temp _ _ file => (.ok (min (a.count + 1) bytes.length), h,
          d.setData file (d.data file ++ bytes.take (a.count + 1)))
      | _ => (.error badDescriptor, h, d))
      a h d
  | .close =>
    let left := match h with
      | .reading .. => .none
      | _ => h
    refusable (.ok (), left, d) a left d
  | .replace tenantId sha256 =>
    refusable
      (match h with
      | .temp tenant drawn _ =>
        match d.entries tenant (.temp drawn) with
        | some file => (.ok (), .none,
            (d.setEntry tenant (.temp drawn) .none).setEntry tenantId (.stored sha256) (some file))
        | none => (.error (.fileNotFound (Store.missingFileMessage tenant drawn)), h, d)
      | _ => (.error badDescriptor, h, d))
      a h d
  | .unlinkTemp =>
    refusable
      (match h with
      | .temp tenant drawn _ =>
        if (d.entries tenant (.temp drawn)).isSome then
          (.ok (), .none, d.setEntry tenant (.temp drawn) .none)
        else (.error (.fileNotFound (Store.missingFileMessage tenant drawn)), h, d)
      | _ => (.error badDescriptor, h, d))
      a h d
  | .unlink tenantId sha256 =>
    refusable
      (if (d.entries tenantId (.stored sha256)).isSome then
        (.ok (), h, d.setEntry tenantId (.stored sha256) .none)
      else (.error (.fileNotFound (Store.missingFileMessage tenantId sha256)), h, d))
      a h d
  | .openRead tenantId sha256 =>
    refusable
      (match d.entries tenantId (.stored sha256) with
      | some file => (.ok (), .reading file 0, d)
      | none => (.error (.fileNotFound (Store.missingFileMessage tenantId sha256)), h, d))
      a h d
  | .fileSize =>
    refusable
      (match h with
      | .reading file _ => (.ok (d.data file).length, h, d)
      | _ => (.error badDescriptor, h, d))
      a h d
  | .read =>
    refusable
      (match h with
      | .reading file offset =>
        let bytes := ((d.data file).drop offset).take (a.count + 1)
        (.ok bytes, .reading file (offset + bytes.length), d)
      | _ => (.error badDescriptor, h, d))
      a h d
  | .isFile tenantId sha256 => (.ok (d.entries tenantId (.stored sha256)).isSome, h, d)

/-! ## The machine -/

/-- The database and the clock, and the disk in the place of the store's files. -/
structure Machine where
  store : Store
  disk : Disk

/-- The store, with the files that the disk has. -/
def Machine.view (m : Machine) : Store := { m.store with files := m.disk.files }

def Machine.tick (elapsed : Time) (m : Machine) : Machine := { m with store := m.store.tick elapsed }

inductive MachineOp where
  | base (o : Op)
  | file (o : FileOp)

abbrev MachineOp.Res : MachineOp → Type
  | .base o => o.Res
  | .file o => o.Res

def machineExec : Lib.Exec MachineOp MachineOp.Res Raised DiskAnswer (Session × Handle) Machine
  | .base o, a, (session, h), m =>
    let r := exec o a.toAnswer session m.store
    (r.1.mapError .exn, (r.2.1, h), { m with store := r.2.2 })
  | .file o, a, (session, h), m =>
    let r := fileExec o a h m.disk
    (r.1, (session, r.2.1), { m with disk := r.2.2 })

abbrev MachineProgram := Lib.Prog MachineOp MachineOp.Res Raised

abbrev diskCall (o : FileOp) : MachineProgram o.Res := Lib.Prog.call (MachineOp.file o)

/-! ## The storage functions -/

/-- The buffered writer's loop; a write takes at least one byte. -/
def writeAll : Nat → Bytes → MachineProgram Unit
  | 0, _ => return ()
  | fuel + 1, bytes =>
    if bytes = [] then return ()
    else do
      let written ← diskCall (.write bytes)
      writeAll fuel (bytes.drop written)

/-- A `with` block of an open file: an exception of `close` takes the place of the block's. -/
def withFile {α : Type} (body : MachineProgram α) : MachineProgram α := do
  let res ← body.attempt
  diskCall .close
  Lib.Prog.ofResult res

/-- The `raise` under `finally` raises the exception of `os.unlink` if there is one. -/
def saveDocument (tenantId : Uuid) (sha256 : Str) (content : Bytes) : MachineProgram Unit := do
  diskCall (.makeDir tenantId)
  diskCall (.makeTemp tenantId)
  try
    withFile (writeAll content.length content)
    diskCall (.replace tenantId sha256)
  catch e =>
    diskCall .unlinkTemp
    throw e

def deleteDocument (tenantId : Uuid) (sha256 : Str) : MachineProgram Bool :=
  try
    diskCall (.unlink tenantId sha256)
    return true
  catch e =>
    match e with
    | .fileNotFound _ => return false
    | e => throw e

/-- Reads until there is nothing left. -/
def readAll : Nat → MachineProgram Bytes
  | 0 => return []
  | fuel + 1 => do
    let bytes ← diskCall .read
    if bytes = [] then return []
    else do
      let rest ← readAll fuel
      return bytes ++ rest

/-- `Path.read_bytes`: the file's size and one call more are enough for a file that does not grow. -/
def readBytes (tenantId : Uuid) (sha256 : Str) : MachineProgram Bytes := do
  diskCall (.openRead tenantId sha256)
  withFile do
    let size ← diskCall .fileSize
    readAll (size + 1)

/-- An operation of the store, its files on the disk. -/
def access : (o : Op) → MachineProgram o.Res
  | .saveFile tenantId sha256 content => saveDocument tenantId sha256 content
  | .unlinkFile tenantId sha256 => deleteDocument tenantId sha256
  | .readFile tenantId sha256 => readBytes tenantId sha256
  | .isFile tenantId sha256 => diskCall (.isFile tenantId sha256)
  | o => Lib.Prog.call (MachineOp.base o)

/-- A service, its files on the disk. -/
def onDisk {α : Type} : Service α → MachineProgram α
  | .ret r => .ret r
  | .raise e => .raise (.exn e)
  | .op o next => (access o).attempt.bind fun res => onDisk (next (res.mapError Raised.toExn))

/-- Every party before its first operation, with a fresh session and nothing in hand. -/
def start {ι : Type} (m : Machine) (programs : ι → Option (Service Unit)) :
    Lib.Pool ι (Session × Handle) Machine MachineOp MachineOp.Res Raised Unit :=
  ⟨m, fun i => (programs i).map fun program => ((⟨false⟩, .none), onDisk program)⟩

def step {ι : Type} [DecidableEq ι] :
    Lib.Pool ι (Session × Handle) Machine MachineOp MachineOp.Res Raised Unit →
      Lib.Turn ι DiskAnswer Time →
        Option (Lib.Pool ι (Session × Handle) Machine MachineOp MachineOp.Res Raised Unit) :=
  Lib.Pool.step machineExec Machine.tick

end ContractIntel.Storage
