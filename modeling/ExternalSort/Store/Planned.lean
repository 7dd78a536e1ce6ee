/-
A store whose faults are planned.

It holds files by their paths and keeps a record of every call.  The plan
says which calls fail, how the created files take their bytes and how the
opened ones give them; it sees how many calls of the kind came before.
-/
import ExternalSort.Store.Basic

namespace ExternalSort

/-- The kinds of calls to a store. -/
inductive StoreAction where
  | create
  | openFile
  | remove
  | ensureDirectory
deriving DecidableEq, Repr

/-- A call to a store, and whether it succeeded. -/
structure StoreCall where
  action : StoreAction
  path : Path
  succeeded : Bool
deriving DecidableEq, Repr

/-- Which calls fail and how files behave.  The number of a call counts
the calls of its kind before it. -/
structure StorePlan where
  createFault : Nat → Option Fault := fun _ => none
  sinkPlan : Nat → SinkPlan := fun _ => {}
  openFault : Nat → Option Fault := fun _ => none
  source : Nat → List UInt8 → Source := fun _ bs => Source.ofBytes bs
  removeFault : Nat → Option Fault := fun _ => none
  ensureFault : Nat → Option Fault := fun _ => none

/-- A store whose faults are planned. -/
structure PlannedStore where
  plan : StorePlan := {}
  files : List (Path × List UInt8) := []
  calls : Array StoreCall := #[]

namespace PlannedStore

/-- How many calls of a kind there were. -/
def count (w : PlannedStore) (a : StoreAction) : Nat := w.calls.countP (·.action == a)

/-- Takes note of a call. -/
def record (w : PlannedStore) (a : StoreAction) (p : Path) (succeeded : Bool) : PlannedStore :=
  { w with calls := w.calls.push ⟨a, p, succeeded⟩ }

/-- The content of a file. -/
def get? (w : PlannedStore) (p : Path) : Option (List UInt8) := w.files.lookup p

/-- Gives a file a content, in its place if there is one already. -/
def putFile (p : Path) (bs : List UInt8) : List (Path × List UInt8) → List (Path × List UInt8)
  | [] => [(p, bs)]
  | (q, cs) :: fs => if q = p then (q, bs) :: fs else (q, cs) :: putFile p bs fs

/-- Puts a file into the store, past all calls. -/
def put (w : PlannedStore) (p : Path) (bs : List UInt8) : PlannedStore :=
  { w with files := putFile p bs w.files }

/-- Takes a file out of the store, past all calls. -/
def erase (w : PlannedStore) (p : Path) : PlannedStore :=
  { w with files := w.files.filter (·.1 != p) }

/-- Another file has the name already. -/
def taken : Fault := ⟨.alreadyExists, "exists"⟩

/-- There is no such file. -/
def missing : Fault := ⟨.notFound, "no such file"⟩

def create (w : PlannedStore) (p : Path) : Except Fault Sink × PlannedStore :=
  let n := w.count .create
  match w.plan.createFault n with
  | some f => (.error f, w.record .create p false)
  | none =>
    if (w.get? p).isSome then (.error taken, w.record .create p false)
    else (.ok { plan := w.plan.sinkPlan n }, (w.record .create p true).put p [])

def openFile (w : PlannedStore) (p : Path) : Except Fault Source × PlannedStore :=
  let n := w.count .openFile
  match w.plan.openFault n with
  | some f => (.error f, w.record .openFile p false)
  | none =>
    match w.get? p with
    | none => (.error missing, w.record .openFile p false)
    | some bs => (.ok (w.plan.source n bs), w.record .openFile p true)

def remove (w : PlannedStore) (p : Path) : Except Fault Unit × PlannedStore :=
  match w.plan.removeFault (w.count .remove) with
  | some f => (.error f, w.record .remove p false)
  | none =>
    if (w.get? p).isSome then (.ok (), (w.record .remove p true).erase p)
    else (.error missing, w.record .remove p false)

def ensureDirectory (w : PlannedStore) (p : Path) : Except Fault Unit × PlannedStore :=
  match w.plan.ensureFault (w.count .ensureDirectory) with
  | some f => (.error f, w.record .ensureDirectory p false)
  | none => (.ok (), w.record .ensureDirectory p true)

instance : SpillStore PlannedStore where
  create := create
  keep w p s := w.put p s.bytes
  openFile := openFile
  remove := remove
  ensureDirectory := ensureDirectory

end PlannedStore

end ExternalSort
