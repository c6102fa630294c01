import LlmGuard.Code.Rule

/-!
# `MigrationRunner`

`Migrations.hpp`: any number of booting instances that share one database. A step is one statement that the
database sees or one turn of the loop of `initialize`. No statement fails and no instance crashes.
-/

namespace LlmGuard

structure MigrationFile where
  version : Nat
  name : Bytes
  /-- What `read_file` finds under `path`. -/
  sql : Bytes
deriving DecidableEq

def hasNoTransactionMarker (sql : Bytes) : Bool := contains sql (ascii "-- migrate:no-transaction")

/-! ## `scan_migrations` -/

structure DirEntry where
  isRegularFile : Bool
  filename : Bytes
  content : Bytes
deriving DecidableEq

/-- The first group of `^(\d+)[_-].*\.sql$`. -/
def matchFilename (filename : Bytes) : Option Bytes :=
  let digits := filename.takeWhile isDigit
  match filename.dropWhile isDigit with
  | [] => none
  | sep :: rest =>
    -- `.` matches no line terminator.
    if digits ≠ [] ∧ (sep = ch '_' ∨ sep = ch '-') ∧ ascii ".sql" <:+ rest ∧ ch '\n' ∉ rest ∧ ch '\r' ∉ rest then
      some digits
    else none

/-- `std::stoi` of a digit string. -/
def stoi (digits : Bytes) : Except Error Nat :=
  if digitsVal digits ≤ 2 ^ 31 - 1 then .ok (digitsVal digits) else .error (.outOfRange (ascii "stoi"))

def scanEntry (entry : DirEntry) : Except Error (Option MigrationFile) :=
  if !entry.isRegularFile then .ok none
  else
    match matchFilename entry.filename with
    | none => .ok none
    | some digits => (stoi digits).map fun version => some ⟨version, entry.filename, entry.content⟩

/-- The files in the order in which the directory lists them. -/
def scanDirectory : List DirEntry → Except Error (List MigrationFile)
  | [] => .ok []
  | entry :: entries =>
    match scanEntry entry with
    | .error e => .error e
    | .ok none => scanDirectory entries
    | .ok (some mf) => (scanDirectory entries).map (mf :: ·)

/-- What `std::sort` may make of the files: it leaves those of one version in any order. -/
def SortedByVersion (files ms : List MigrationFile) : Prop :=
  ms.Perm files ∧ ms.Pairwise fun a b => a.version ≤ b.version

instance (files ms : List MigrationFile) : Decidable (SortedByVersion files ms) :=
  inferInstanceAs (Decidable (_ ∧ _))

/-! ## `initialize` -/

/-- Where an instance is while it has the advisory lock. -/
inductive Stage
  | locked
  /-- The version is recorded already. -/
  | found
  | unseen
  | executed
  | inserted
deriving DecidableEq

inductive Runner
  | boot
  | scanned (migrations : List MigrationFile)
  | loop (applied : List Nat) (migrations : List MigrationFile)
  | critical (stage : Stage) (applied : List Nat) (mf : MigrationFile) (rest : List MigrationFile)
  | returned
deriving DecidableEq

structure MigrationDb where
  /-- The committed rows of `schema_migrations`. -/
  recorded : List Nat
  /-- The instance that has the advisory lock. -/
  lock : Option Nat
  executed : List MigrationFile
deriving DecidableEq

/-- What instance `i` does next. `none` while it has to wait for the lock. -/
def Runner.next (i : Nat) (db : MigrationDb) : Runner → Option (MigrationDb × Runner)
  | .boot => none
  | .scanned [] => some (db, .returned)
  | .scanned ms => some (db, .loop db.recorded ms)
  | .loop _ [] => some (db, .returned)
  | .loop applied (mf :: rest) =>
    if mf.version ∈ applied then some (db, .loop applied rest)
    else if db.lock = none then some ({ db with lock := some i }, .critical .locked applied mf rest)
    else none
  | .critical .locked applied mf rest =>
    some (db, .critical (if mf.version ∈ db.recorded then .found else .unseen) applied mf rest)
  | .critical .found applied _ rest => some ({ db with lock := none }, .loop applied rest)
  | .critical .unseen applied mf rest =>
    some ({ db with executed := db.executed ++ [mf] }, .critical .executed applied mf rest)
  | .critical .executed applied mf rest =>
    -- Outside a transaction the row is there at once.
    some (if hasNoTransactionMarker mf.sql then { db with recorded := db.recorded ++ [mf.version] } else db,
      .critical .inserted applied mf rest)
  | .critical .inserted applied mf rest =>
    -- Otherwise the commit shows it, and gives up the lock.
    some (if hasNoTransactionMarker mf.sql then { db with lock := none }
      else { db with recorded := db.recorded ++ [mf.version], lock := none }, .loop applied rest)
  | .returned => none

structure Cluster where
  db : MigrationDb
  runners : List Runner
deriving DecidableEq

inductive MigrationEvent
  /-- Instance `i` reads the directory, in some order, and sorts. -/
  | scan (i : Nat) (listing : List DirEntry) (migrations : List MigrationFile)
  | next (i : Nat)

namespace Cluster

/-- `schema_migrations` is empty. -/
def init (instances : Nat) : Cluster := ⟨⟨[], none, []⟩, List.replicate instances .boot⟩

def step (dir : List DirEntry) (c : Cluster) : MigrationEvent → Option Cluster
  | .scan i listing ms =>
    if c.runners[i]? = some .boot ∧ listing.Perm dir then
      match scanDirectory listing with
      | .error _ => none
      | .ok files => if SortedByVersion files ms then some { c with runners := c.runners.set i (.scanned ms) } else none
    else none
  | .next i =>
    match c.runners[i]? with
    | none => none
    | some r => (r.next i c.db).map fun p => ⟨p.1, c.runners.set i p.2⟩

def run (dir : List DirEntry) (c : Cluster) (events : List MigrationEvent) : Option Cluster :=
  events.foldlM (step dir) c

/-- Every call of `initialize` has returned. -/
def Returned (c : Cluster) : Prop := ∀ r ∈ c.runners, r = .returned

end Cluster

end LlmGuard
