import Haive.Lib.Runs
import Mathlib.Logic.Function.Basic

/-!
# Parking a file

`settleParked` in `shared/src/fs-safe.ts`: a file is moved to a private name, judged there, and
deleted or moved back without replacing what has taken its name. Each system call is a step and
any of them may fail. Between two steps a writer may save, replace or remove the entry at the name.

`parked_file_kept`: what is deleted was judged by its own bytes, nothing but the park takes an
entry from the name, and a version that no writer replaced or removed is at the name or at the
parked name, unless the judge accepted it for removal.

Nobody but the operation knows the parked name. The two names are all there is of the directory.
-/

namespace Haive.Files

open Lib

/-! ## The directory -/

structure File where
  data : List UInt8
  mode : Nat
  uid : Nat
  gid : Nat
deriving DecidableEq, Repr

inductive Node
  | file (f : File)
  | link
  | directory (empty : Bool)
deriving DecidableEq, Repr

def Node.isDirectory : Node → Bool
  | .directory _ => true
  | _ => false

/-- The two names, and the inodes. `next` has not been used. -/
structure Entries where
  name : Option Nat
  parked : Option Nat
  node : Nat → Node
  next : Nat

def Entries.setNode (d : Entries) (i : Nat) (n : Node) : Entries := { d with node := Function.update d.node i n }

/-- `rename(leaf, parked)`. -/
def Entries.park (d : Entries) : Option Entries :=
  d.name.map fun i => { d with name := none, parked := some i }

/-- `link(parked, leaf)`. -/
def Entries.link (d : Entries) : Option Entries :=
  match d.parked, d.name with
  | some i, none => if (d.node i).isDirectory then none else some { d with name := some i }
  | _, _ => none

/-- `unlink(parked)`. -/
def Entries.unlink (d : Entries) : Option Entries :=
  match d.parked with
  | some i => if (d.node i).isDirectory then none else some { d with parked := none }
  | none => none

def Entries.place (d : Entries) (n : Node) : Entries :=
  { d.setNode d.next n with name := some d.next, next := d.next + 1 }

/-- `mkdir(leaf)`. -/
def Entries.mkdir (d : Entries) : Option Entries :=
  match d.name with
  | none => some (d.place (.directory true))
  | some _ => none

/-- `rename(parked, leaf)` of a directory, which replaces an empty directory only. -/
def Entries.renameBack (d : Entries) : Option Entries :=
  match d.parked, d.name with
  | some i, none => some { d with name := some i, parked := none }
  | some i, some j =>
    if d.node j = .directory true then some { d with name := some i, parked := none } else none
  | none, _ => none

/-- `rmdir(leaf)`. -/
def Entries.rmdir (d : Entries) : Option Entries :=
  match d.name with
  | some j => if d.node j = .directory true then some { d with name := none } else none
  | none => none

/-! ## The operation -/

/-- `ParkedVerdict`. -/
inductive Verdict
  | remove
  | keep
  | replace (data : List UInt8)
deriving DecidableEq, Repr

/-- `removeFileIfNoFollow` or `rewriteFileIfNoFollow`, with the caller's judge. It may throw. -/
inductive Operation
  | remove (accept : File → Option Bool)
  | rewrite (edit : File → Option (Option (List UInt8)))

def Operation.decide : Operation → File → Option Verdict
  | .remove accept, f => (accept f).map fun accepted => if accepted then .remove else .keep
  | .rewrite edit, f => (edit f).map fun
    | some data => .replace data
    | none => .keep

structure ParkOptions where
  maxBytes : Option Nat
  repairPermissions : Bool

inductive Result
  | removed | rewritten | absent | kept | threw | parkedFile
deriving DecidableEq, Repr

/-- The next system call. `after` is what the operation comes to once the file is back. -/
inductive Stage
  | lstat
  | park (repair : Bool)
  | openParked
  | read
  | truncate (f : File) (data : List UInt8)
  | write (f : File) (data : List UInt8)
  | truncateBack (f : File)
  | writeBack (f : File)
  | unlinkParked
  | lstatParked (after : Result)
  | link (after : Result)
  | unlinkBack (after : Result)
  | mkdir (after : Result)
  | renameBack (after : Result)
  | rmdir
  | done (result : Result)
deriving DecidableEq, Repr

/-- `saved` is each version as its writer saved it, `taken` what writers replaced or removed at the
name, `deleted` what the operation deleted. -/
structure Sys where
  dir : Entries
  stage : Stage
  saved : Nat → Option Node
  taken : List Nat
  deleted : List Nat

inductive Action
  /-- A system call. `ok`: it does not fail. `wrote`: how much a failed write wrote. -/
  | call (ok : Bool) (wrote : Nat)
  | save (n : Node)
  | remove

def Sys.goto (s : Sys) (stage : Stage) : Sys := { s with stage }

/-- After a call that changes the directory, or the stage after its failure. -/
def Sys.then (s : Sys) (ok : Bool) (dir : Option Entries) (stage failed : Stage) : Sys :=
  match ok, dir with
  | true, some dir => { s with dir, stage }
  | _, _ => s.goto failed

/-- The bytes of the parked inode, through its descriptor. -/
def Sys.fill (s : Sys) (f : File) (data : List UInt8) (stage : Stage) : Sys :=
  match s.dir.parked with
  | some i => { s with dir := s.dir.setNode i (.file { f with data }), stage }
  | none => s.goto stage

/-- What the parked name holds. -/
def Sys.parkedNode (s : Sys) : Option Node := s.dir.parked.map s.dir.node

/-- `judgeParked`, once the bytes are read. -/
def Sys.judge (op : Operation) (opts : ParkOptions) (s : Sys) (f : File) : Sys :=
  if opts.maxBytes.any (· < f.data.length) then s.goto (.lstatParked .kept)
  else
    match op.decide f with
    | none => s.goto (.lstatParked .threw)
    | some .remove => s.goto .unlinkParked
    | some .keep => s.goto (.lstatParked .kept)
    | some (.replace data) => s.goto (.truncate f data)

def Sys.call (op : Operation) (opts : ParkOptions) (s : Sys) (ok : Bool) (wrote : Nat) : Sys :=
  match s.stage with
  | .lstat =>
    if ok then
      match s.dir.name.map s.dir.node with
      | none => s.goto (.done .absent)
      | some (.file _) => s.goto (.park opts.repairPermissions)
      | some _ => s.goto (.done .kept)
    else s.goto (.done .threw)
  | .park repair =>
    if ok then s.then ok s.dir.park .openParked (.done .absent)
    else if repair then s.goto (.park false)
    else s.goto (.done .threw)
  | .openParked =>
    match ok, s.parkedNode with
    | true, some (.file _) => s.goto .read
    | true, some _ => s.goto (.lstatParked .kept)
    | _, _ => s.goto (.lstatParked .threw)
  | .read =>
    match ok, s.parkedNode with
    | true, some (.file f) => s.judge op opts f
    | true, some _ => s.goto (.lstatParked .kept)
    | _, _ => s.goto (.lstatParked .threw)
  | .truncate f data => if ok then s.fill f [] (.write f data) else s.goto (.lstatParked .threw)
  | .write f data =>
    if ok then s.fill f data (.lstatParked .rewritten) else s.fill f (data.take wrote) (.truncateBack f)
  | .truncateBack f => if ok then s.fill f [] (.writeBack f) else s.goto (.lstatParked .threw)
  | .writeBack f => s.fill f (if ok then f.data else f.data.take wrote) (.lstatParked .threw)
  | .unlinkParked =>
    match ok, s.dir.unlink with
    | true, some dir => { s with dir, stage := .done .removed, deleted := s.deleted ++ s.dir.parked.toList }
    | _, _ => s.goto (.lstatParked .threw)
  | .lstatParked after =>
    match ok, s.parkedNode with
    | true, some (.directory _) => s.goto (.mkdir after)
    | true, some _ => s.goto (.link after)
    | _, _ => s.goto (.done .parkedFile)
  | .link after => s.then ok s.dir.link (.unlinkBack after) (.done .parkedFile)
  | .unlinkBack after => s.then ok s.dir.unlink (.done after) (.done .parkedFile)
  | .mkdir after => s.then ok s.dir.mkdir (.renameBack after) (.done .parkedFile)
  | .renameBack after => s.then ok s.dir.renameBack (.done after) .rmdir
  | .rmdir => s.then ok s.dir.rmdir (.done .parkedFile) (.done .parkedFile)
  | .done _ => s

/-- Whether a rename may put `n` where `old` is. -/
def Node.replaces (n old : Node) : Bool :=
  if old.isDirectory then n.isDirectory && old = .directory true else !n.isDirectory

/-- The version `n` of a writer, which is a new inode. -/
def Sys.put (s : Sys) (n : Node) : Sys :=
  { s with dir := s.dir.place n, saved := Function.update s.saved s.dir.next (some n) }

def Sys.step (op : Operation) (opts : ParkOptions) (s : Sys) : Action → Option Sys
  | .call ok wrote => some (s.call op opts ok wrote)
  | .save n =>
    match s.dir.name with
    | none => some (s.put n)
    | some i => if n.replaces (s.dir.node i) then some ({ s with taken := i :: s.taken }.put n) else none
  | .remove =>
    match s.dir.name with
    | none => none
    | some i =>
      if s.dir.node i = .directory false then none
      else some { s with dir := { s.dir with name := none }, taken := i :: s.taken }

/-- A call of the operation on whatever is at the name. -/
def start (entry : Option Node) : Sys where
  dir :=
    { name := entry.map fun _ => 0
      parked := none
      node := fun _ => entry.getD .link
      next := 1 }
  stage := .lstat
  saved := fun i => if i = 0 then entry else none
  taken := []
  deleted := []

/-! ## The invariant -/

variable {op : Operation} {opts : ParkOptions} {s s' : Sys} {d : Entries} {stage failed : Stage} {i : Nat}
  {n : Node} {f : File} {data : List UInt8} {after : Result} {ok : Bool} {wrote : Nat}

/-- At one of the two names. -/
def Sys.At (s : Sys) (i : Nat) : Prop := s.dir.name = some i ∨ s.dir.parked = some i

/-- The version `i` is parked, and its inode is still what it was. -/
def Sys.Holds (s : Sys) (i : Nat) (n : Node) : Prop :=
  s.dir.parked = some i ∧ s.saved i = some n ∧ s.dir.node i = n

/-- The version `i` is parked, and the judge asked for other bytes. -/
def Sys.Edits (op : Operation) (s : Sys) (i : Nat) (f : File) : Prop :=
  s.dir.parked = some i ∧ s.saved i = some (.file f) ∧ ∃ data, op.decide f = some (.replace data)

def Stage.Fits (op : Operation) (s : Sys) : Stage → Prop
  | .lstat | .park _ => s.dir.parked = none ∧ (∀ i, s.dir.name = some i → ∃ n, s.saved i = some n) ∧
    ∀ i n, s.saved i = some n → s.dir.node i = n
  | .openParked => ∃ i n, s.Holds i n
  | .read => ∃ i f, s.Holds i (.file f)
  | .truncate f _ | .write f _ | .truncateBack f | .writeBack f => ∃ i, s.Edits op i f
  | .unlinkParked => ∃ i f, s.Holds i (.file f) ∧ op.decide f = some .remove
  | .lstatParked _ => ∃ i n, s.dir.parked = some i ∧ s.saved i = some n
  | .link _ => ∃ i, s.dir.parked = some i ∧ (s.dir.node i).isDirectory = false
  | .unlinkBack _ => ∃ i, s.dir.parked = some i ∧ (s.dir.name = some i ∨ i ∈ s.taken)
  | .mkdir _ | .renameBack _ | .rmdir | .done _ => True

/-- What holds of the directory and the versions at every call. -/
structure Sys.Versions (op : Operation) (s : Sys) : Prop where
  saved_lt : ∀ i n, s.saved i = some n → i < s.dir.next
  name_lt : ∀ i, s.dir.name = some i → i < s.dir.next
  parked_lt : ∀ i, s.dir.parked = some i → i < s.dir.next
  content : ∀ i n, s.saved i = some n → s.dir.node i = n ∨
    ∃ f data g, n = .file f ∧ op.decide f = some (.replace data) ∧ s.dir.node i = .file g
  located : ∀ i n, s.saved i = some n → n.isDirectory = false → i ∈ s.taken ∨ i ∈ s.deleted ∨ s.At i
  deleted : ∀ i ∈ s.deleted, ∃ f, s.saved i = some (.file f) ∧ op.decide f = some .remove

structure Sys.Kept (op : Operation) (s : Sys) : Prop where
  versions : s.Versions op
  stage : s.stage.Fits op s

theorem Sys.Versions.goto (h : s.Versions op) (stage : Stage) : (s.goto stage).Versions op :=
  ⟨h.saved_lt, h.name_lt, h.parked_lt, h.content, h.located, h.deleted⟩

theorem Sys.Versions.isDirectory (h : s.Versions op) (hi : s.saved i = some n) :
    (s.dir.node i).isDirectory = n.isDirectory := by
  rcases h.content i n hi with hn | ⟨f, _, g, rfl, -, hg⟩
  · rw [hn]
  · rw [hg]
    rfl

/-- Writing over the parked version that the judge asked to. -/
theorem Sys.Versions.fill (h : s.Versions op) (hedits : s.Edits op i f) (data : List UInt8) (stage : Stage) :
    (s.fill f data stage).Versions op ∧ ∃ j, (s.fill f data stage).Edits op j f := by
  obtain ⟨hparked, hsaved, next, hnext⟩ := hedits
  have hfill : s.fill f data stage = { s with dir := s.dir.setNode i (.file { f with data }), stage } := by
    simp only [Sys.fill, hparked]
  rw [hfill]
  refine ⟨⟨h.saved_lt, h.name_lt, h.parked_lt, fun j n hj => ?_, h.located, h.deleted⟩, i, hparked, hsaved, next, hnext⟩
  rcases Decidable.em (j = i) with rfl | hne
  · obtain rfl := Option.some.inj (hsaved.symm.trans hj)
    exact .inr ⟨f, next, { f with data }, rfl, hnext, Function.update_self ..⟩
  · have hnode : (s.dir.setNode i (.file { f with data })).node j = s.dir.node j := Function.update_of_ne hne ..
    change (s.dir.setNode i (.file { f with data })).node j = n ∨ _
    rw [hnode]
    exact h.content j n hj

/-- A change of the two names that loses no version. -/
theorem Sys.Versions.rebind (h : s.Versions op) (hnode : d.node = s.dir.node) (hnext : d.next = s.dir.next)
    (hname : ∀ i, d.name = some i → s.At i) (hparked : ∀ i, d.parked = some i → s.At i)
    (hstays : ∀ i n, s.saved i = some n → n.isDirectory = false → s.At i →
      i ∈ s.taken ∨ d.name = some i ∨ d.parked = some i) :
    Sys.Versions op { s with dir := d, stage } := by
  have hlt : ∀ i, s.At i → i < s.dir.next := fun i hi => hi.elim (h.name_lt i) (h.parked_lt i)
  refine ⟨fun i n hi => ?_, fun i hi => ?_, fun i hi => ?_, fun i n hi => ?_, fun i n hi hdir => ?_, h.deleted⟩
  · rw [hnext]
    exact h.saved_lt i n hi
  · rw [hnext]
    exact hlt i (hname i hi)
  · rw [hnext]
    exact hlt i (hparked i hi)
  · rw [hnode]
    exact h.content i n hi
  · rcases h.located i n hi hdir with htaken | hdeleted | hat
    · exact .inl htaken
    · exact .inr (.inl hdeleted)
    · rcases hstays i n hi hdir hat with htaken | hat'
      · exact .inl htaken
      · exact .inr (.inr hat')

/-- A new inode at a name whose entry, if there is one, a writer takes. -/
theorem Sys.Versions.place (h : s.Versions op) (n : Node) (hname : ∀ i, s.dir.name = some i → i ∈ s.taken)
    (saved : Nat → Option Node) (hold : ∀ i, i ≠ s.dir.next → saved i = s.saved i)
    (hnew : ∀ m, saved s.dir.next = some m → m = n) :
    Sys.Versions op { s with dir := s.dir.place n, saved, stage } := by
  have hnode : ∀ i, i ≠ s.dir.next → (s.dir.place n).node i = s.dir.node i := fun i hi => Function.update_of_ne hi ..
  have hself : (s.dir.place n).node s.dir.next = n := Function.update_self ..
  refine ⟨fun i m hi => ?_, fun i hi => ?_, fun i hi => Nat.lt_succ_of_lt (h.parked_lt i hi), fun i m hi => ?_,
    fun i m hi hdir => ?_, fun i hi => ?_⟩
  · rcases Decidable.em (i = s.dir.next) with rfl | hne
    · exact Nat.lt_succ_self _
    · exact Nat.lt_succ_of_lt (h.saved_lt i m (hold i hne ▸ hi))
  · cases hi
    exact Nat.lt_succ_self _
  · rcases Decidable.em (i = s.dir.next) with rfl | hne
    · obtain rfl := hnew m hi
      exact .inl hself
    · change (s.dir.place n).node i = m ∨ _
      rw [hnode i hne]
      exact h.content i m (hold i hne ▸ hi)
  · rcases Decidable.em (i = s.dir.next) with rfl | hne
    · exact .inr (.inr (.inl rfl))
    · rcases h.located i m (hold i hne ▸ hi) hdir with htaken | hdeleted | hat | hat
      · exact .inl htaken
      · exact .inr (.inl hdeleted)
      · exact .inl (hname i hat)
      · exact .inr (.inr (.inr hat))
  · obtain ⟨f, hf, hremove⟩ := h.deleted i hi
    have hne : i ≠ s.dir.next := Nat.ne_of_lt (h.saved_lt i _ hf)
    exact ⟨f, (hold i hne).trans hf, hremove⟩

/-! ## The calls -/

theorem Sys.Kept.goto (h : s.Versions op) (hstage : stage.Fits op s) : (s.goto stage).Kept op := by
  refine ⟨h.goto stage, ?_⟩
  change stage.Fits op (s.goto stage)
  cases stage <;> exact hstage

theorem Sys.Kept.done (h : s.Versions op) (result : Result) : (s.goto (.done result)).Kept op :=
  .goto h trivial

/-- A call that does nothing where it fails. -/
theorem then_kept {dir : Option Entries} (h : s.Versions op) (hfailed : failed.Fits op s)
    (hdone : ∀ d, dir = some d → Sys.Kept op { s with dir := d, stage }) : (s.then ok dir stage failed).Kept op := by
  cases dir with
  | none => cases ok <;> exact .goto h hfailed
  | some d =>
    cases ok with
    | false => exact .goto h hfailed
    | true => exact hdone d rfl

theorem park_kept (h : s.Versions op) (hfits : Stage.Fits op s .lstat) :
    (s.then ok s.dir.park .openParked (.done .absent)).Kept op := by
  obtain ⟨hparked, hname, hcontent⟩ := hfits
  refine then_kept h trivial fun d hd => ?_
  obtain ⟨i, hi, rfl⟩ := Option.map_eq_some_iff.mp hd
  obtain ⟨n, hn⟩ := hname i hi
  refine ⟨h.rebind rfl rfl (fun j hj => by cases hj) (fun j hj => ?_) (fun j m _ _ hat => ?_),
    i, n, rfl, hn, hcontent i n hn⟩
  · cases hj
    exact .inl hi
  · rcases hat with hat | hat
    · exact .inr (.inr (hi ▸ hat))
    · rw [hparked] at hat
      cases hat

theorem link_kept (h : s.Versions op) (hfits : Stage.Fits op s (.link after)) :
    (s.then ok s.dir.link (.unlinkBack after) (.done .parkedFile)).Kept op := by
  obtain ⟨i, hparked, hdir⟩ := hfits
  refine then_kept h trivial fun d hd => ?_
  cases hname : s.dir.name with
  | some j => simp [Entries.link, hparked, hname] at hd
  | none =>
    simp only [Entries.link, hparked, hname, hdir, Bool.false_eq_true, if_false, Option.some.injEq] at hd
    subst hd
    refine ⟨h.rebind rfl rfl (fun j hj => ?_) (fun j hj => .inr (hparked.trans hj)) (fun j m _ _ hat => ?_),
      i, rfl, .inl rfl⟩
    · cases hj
      exact .inr hparked
    · rcases hat with hat | hat
      · rw [hname] at hat
        cases hat
      · exact .inr (.inr (hparked ▸ hat))

theorem unlinkBack_kept (h : s.Versions op) (hfits : Stage.Fits op s (.unlinkBack after)) :
    (s.then ok s.dir.unlink (.done after) (.done .parkedFile)).Kept op := by
  obtain ⟨i, hparked, hback⟩ := hfits
  refine then_kept h trivial fun d hd => ?_
  simp only [Entries.unlink, hparked] at hd
  split at hd
  · cases hd
  · cases hd
    refine ⟨h.rebind rfl rfl (fun j hj => .inl hj) (fun j hj => by cases hj) (fun j m _ _ hat => ?_), trivial⟩
    rcases hat with hat | hat
    · exact .inr (.inl hat)
    · rw [hparked] at hat
      cases hat
      exact hback.symm.imp_right .inl

theorem mkdir_kept (h : s.Versions op) : (s.then ok s.dir.mkdir (.renameBack after) (.done .parkedFile)).Kept op := by
  refine then_kept h trivial fun d hd => ?_
  cases hname : s.dir.name with
  | some j => simp [Entries.mkdir, hname] at hd
  | none =>
    simp only [Entries.mkdir, hname, Option.some.injEq] at hd
    subst hd
    refine ⟨h.place _ (by simp [hname]) s.saved (fun _ _ => rfl) fun m hm => ?_, trivial⟩
    exact absurd (h.saved_lt _ _ hm) (Nat.lt_irrefl _)

/-- The name of an empty directory that goes holds no file and no link. -/
theorem Sys.Versions.not_at_name {j : Nat} (h : s.Versions op) (hname : s.dir.name = some j)
    (hempty : s.dir.node j = .directory true) (hi : s.saved i = some n) (hdir : n.isDirectory = false) :
    s.dir.name ≠ some i := by
  intro hat
  rw [hname] at hat
  cases hat
  have := h.isDirectory hi
  rw [hempty, hdir] at this
  cases this

theorem renameBack_kept (h : s.Versions op) :
    (s.then ok s.dir.renameBack (.done after) .rmdir).Kept op := by
  refine then_kept h trivial fun d hd => ?_
  cases hparked : s.dir.parked with
  | none => simp [Entries.renameBack, hparked] at hd
  | some i =>
    have hback : d = { s.dir with name := some i, parked := none } ∧
        ∀ j, s.dir.name = some j → s.dir.node j = .directory true := by
      cases hname : s.dir.name with
      | none =>
        simp only [Entries.renameBack, hparked, hname, Option.some.injEq] at hd
        exact ⟨hd.symm, fun j hj => by cases hj⟩
      | some j =>
        simp only [Entries.renameBack, hparked, hname] at hd
        split at hd
        · next hempty =>
          cases hd
          exact ⟨rfl, fun k hk => by (cases hk; exact hempty)⟩
        · cases hd
    obtain ⟨rfl, hname⟩ := hback
    refine ⟨h.rebind rfl rfl (fun j hj => ?_) (fun j hj => by cases hj) (fun j m hj hdir hat => ?_), trivial⟩
    · cases hj
      exact .inr hparked
    · rcases hat with hat | hat
      · exact absurd hat (h.not_at_name hat (hname j hat) hj hdir)
      · exact .inr (.inl (hparked ▸ hat))

theorem rmdir_kept (h : s.Versions op) :
    (s.then ok s.dir.rmdir (.done .parkedFile) (.done .parkedFile)).Kept op := by
  refine then_kept h trivial fun d hd => ?_
  cases hname : s.dir.name with
  | none => simp [Entries.rmdir, hname] at hd
  | some j =>
    simp only [Entries.rmdir, hname] at hd
    split at hd
    · next hempty =>
      cases hd
      refine ⟨h.rebind rfl rfl (fun i hi => by cases hi) (fun i hi => .inr hi) (fun i m hi hdir hat => ?_), trivial⟩
      exact .inr (.inr (hat.resolve_left (h.not_at_name hname hempty hi hdir)))
    · cases hd

theorem judge_kept (opts : ParkOptions) (h : s.Versions op) (hi : s.Holds i (.file f)) : (s.judge op opts f).Kept op := by
  have hback : ∀ after, (s.goto (.lstatParked after)).Kept op := fun after => .goto h ⟨i, _, hi.1, hi.2.1⟩
  unfold Sys.judge
  split
  · exact hback _
  split
  · exact hback _
  · next hremove => exact .goto h ⟨i, f, hi, hremove⟩
  · exact hback _
  · next data hreplace => exact .goto h ⟨i, hi.1, hi.2.1, data, hreplace⟩

theorem unlinkParked_kept (h : s.Versions op) (hi : s.Holds i (.file f)) (hremove : op.decide f = some .remove)
    (hunlink : s.dir.unlink = some d) :
    Sys.Kept op { s with dir := d, stage := .done .removed, deleted := s.deleted ++ s.dir.parked.toList } := by
  obtain ⟨hparked, hsaved, hnode⟩ := hi
  simp only [Entries.unlink, hparked, hnode, Node.isDirectory, Bool.false_eq_true, if_false, Option.some.injEq] at hunlink
  subst hunlink
  refine ⟨⟨h.saved_lt, h.name_lt, fun j hj => (by cases hj), h.content, fun j m hj hdir => ?_, fun j hj => ?_⟩, trivial⟩
  · rcases h.located j m hj hdir with htaken | hdeleted | hat | hat
    · exact .inl htaken
    · exact .inr (.inl (List.mem_append_left _ hdeleted))
    · exact .inr (.inr (.inl hat))
    · exact .inr (.inl (List.mem_append_right _ (by simp [hat])))
  · rw [hparked, Option.toList_some, List.mem_append, List.mem_singleton] at hj
    rcases hj with hj | rfl
    · exact h.deleted j hj
    · exact ⟨f, hsaved, hremove⟩

theorem parkedNode_of_holds (h : s.Holds i n) : s.parkedNode = some n := by
  rw [Sys.parkedNode, h.1, Option.map_some, h.2.2]

theorem call_kept (opts : ParkOptions) (ok : Bool) (wrote : Nat) (h : s.Kept op) :
    (s.call op opts ok wrote).Kept op := by
  obtain ⟨hversions, hfits⟩ := h
  have hback : ∀ {i n} (after : Result), s.dir.parked = some i → s.saved i = some n →
      (s.goto (.lstatParked after)).Kept op := fun after hparked hsaved => .goto hversions ⟨_, _, hparked, hsaved⟩
  have hfill : ∀ {i f} (data : List UInt8) (stage : Stage), s.Edits op i f →
      (∀ s' : Sys, (∃ j, s'.Edits op j f) → stage.Fits op s') → (s.fill f data stage).Kept op := by
    intro i f data stage hedits hstage
    obtain ⟨hfilled, hedits'⟩ := hversions.fill hedits data stage
    refine ⟨hfilled, ?_⟩
    have hsame : (s.fill f data stage).stage = stage := by
      unfold Sys.fill
      split <;> rfl
    rw [hsame]
    exact hstage _ hedits'
  have hedited : ∀ {f} (after : Result) (s' : Sys), (∃ j, s'.Edits op j f) → (Stage.lstatParked after).Fits op s' :=
    fun after s' ⟨j, hj⟩ => ⟨j, _, hj.1, hj.2.1⟩
  unfold Sys.call
  cases hstage : s.stage <;> rw [hstage] at hfits <;> simp only
  case lstat =>
    split
    · split
      · exact .done hversions _
      · exact .goto hversions hfits
      · exact .done hversions _
    · exact .done hversions _
  case park repair =>
    split
    · exact park_kept hversions hfits
    · split
      · exact .goto hversions hfits
      · exact .done hversions _
  case openParked =>
    obtain ⟨i, n, hi⟩ := hfits
    rw [parkedNode_of_holds hi]
    split
    · next f hf =>
      cases hf
      exact .goto hversions ⟨i, f, hi⟩
    · exact hback _ hi.1 hi.2.1
    · exact hback _ hi.1 hi.2.1
  case read =>
    obtain ⟨i, f, hi⟩ := hfits
    rw [parkedNode_of_holds hi]
    split
    · next f' hf =>
      cases hf
      exact judge_kept opts hversions hi
    · exact hback _ hi.1 hi.2.1
    · exact hback _ hi.1 hi.2.1
  case truncate f data =>
    obtain ⟨i, hi⟩ := hfits
    split
    · exact hfill _ _ hi fun _ h => h
    · exact hback _ hi.1 hi.2.1
  case write f data =>
    obtain ⟨i, hi⟩ := hfits
    split
    · exact hfill _ _ hi (hedited _)
    · exact hfill _ _ hi fun _ h => h
  case truncateBack f =>
    obtain ⟨i, hi⟩ := hfits
    split
    · exact hfill _ _ hi fun _ h => h
    · exact hback _ hi.1 hi.2.1
  case writeBack f =>
    obtain ⟨i, hi⟩ := hfits
    exact hfill _ _ hi (hedited _)
  case unlinkParked =>
    obtain ⟨i, f, hi, hremove⟩ := hfits
    split
    · next d hunlink => exact unlinkParked_kept hversions hi hremove hunlink
    · exact hback _ hi.1 hi.2.1
  case lstatParked after =>
    obtain ⟨i, n, hparked, hsaved⟩ := hfits
    have hnode : s.parkedNode = some (s.dir.node i) := by rw [Sys.parkedNode, hparked, Option.map_some]
    rw [hnode]
    split
    · exact .goto hversions trivial
    · next n' hne hn =>
      cases hn
      refine .goto hversions ⟨i, hparked, ?_⟩
      cases hdir : s.dir.node i with
      | directory empty => exact (hne empty hdir).elim
      | _ => rfl
    · exact .done hversions _
  case link after => exact link_kept hversions hfits
  case unlinkBack after => exact unlinkBack_kept hversions hfits
  case mkdir after => exact mkdir_kept hversions
  case renameBack after => exact renameBack_kept hversions
  case rmdir => exact rmdir_kept hversions
  case done result =>
    refine ⟨hversions, ?_⟩
    rw [hstage]
    trivial

/-! ## The writers -/

theorem Stage.Fits.writer (h : stage.Fits op s) (hparked : s'.dir.parked = s.dir.parked)
    (hsame : ∀ i, s.dir.parked = some i → s'.saved i = s.saved i ∧ s'.dir.node i = s.dir.node i)
    (htaken : ∀ i, s.dir.name = some i ∨ i ∈ s.taken → i ∈ s'.taken)
    (hlstat : Stage.Fits op s .lstat → Stage.Fits op s' .lstat) : stage.Fits op s' := by
  have hholds : ∀ {i n}, s.Holds i n → s'.Holds i n := fun {i n} hi =>
    ⟨hparked.trans hi.1, (hsame i hi.1).1.trans hi.2.1, (hsame i hi.1).2.trans hi.2.2⟩
  have hedits : ∀ {i f}, s.Edits op i f → s'.Edits op i f := fun {i f} hi =>
    ⟨hparked.trans hi.1, (hsame i hi.1).1.trans hi.2.1, hi.2.2⟩
  cases stage with
  | lstat | park => exact hlstat h
  | openParked =>
    obtain ⟨i, n, hi⟩ := h
    exact ⟨i, n, hholds hi⟩
  | read =>
    obtain ⟨i, f, hi⟩ := h
    exact ⟨i, f, hholds hi⟩
  | truncate | write | truncateBack | writeBack =>
    obtain ⟨i, hi⟩ := h
    exact ⟨i, hedits hi⟩
  | unlinkParked =>
    obtain ⟨i, f, hi, hremove⟩ := h
    exact ⟨i, f, hholds hi, hremove⟩
  | lstatParked =>
    obtain ⟨i, n, hi, hn⟩ := h
    exact ⟨i, n, hparked.trans hi, (hsame i hi).1.trans hn⟩
  | link =>
    obtain ⟨i, hi, hdir⟩ := h
    exact ⟨i, hparked.trans hi, (congrArg Node.isDirectory (hsame i hi).2).trans hdir⟩
  | unlinkBack =>
    obtain ⟨i, hi, hback⟩ := h
    exact ⟨i, hparked.trans hi, .inr (htaken i hback)⟩
  | _ => trivial

theorem put_kept (h : s.Kept op) (n : Node) (taken : List Nat) (hname : ∀ i, s.dir.name = some i → i ∈ taken)
    (htaken : ∀ i ∈ s.taken, i ∈ taken) : (Sys.put { s with taken } n).Kept op := by
  obtain ⟨hversions, hfits⟩ := h
  have hold : ∀ i, i ≠ s.dir.next → Function.update s.saved s.dir.next (some n) i = s.saved i :=
    fun i hi => Function.update_of_ne hi ..
  have hself : Function.update s.saved s.dir.next (some n) s.dir.next = some n := Function.update_self ..
  have hnode : ∀ i, i ≠ s.dir.next → (s.dir.place n).node i = s.dir.node i := fun i hi => Function.update_of_ne hi ..
  have hafter : Sys.Versions op { s with taken } := by
    refine ⟨hversions.saved_lt, hversions.name_lt, hversions.parked_lt, hversions.content, fun i m hi hdir => ?_,
      hversions.deleted⟩
    exact (hversions.located i m hi hdir).imp_left (htaken i)
  refine ⟨hafter.place n hname _ hold fun m hm => Option.some.inj (hm.symm.trans hself), hfits.writer rfl ?_ ?_ ?_⟩
  · intro i hi
    have hne : i ≠ s.dir.next := Nat.ne_of_lt (hversions.parked_lt i hi)
    exact ⟨hold i hne, hnode i hne⟩
  · exact fun i hi => hi.elim (hname i) (htaken i)
  · rintro ⟨hparked, -, hcontent⟩
    refine ⟨hparked, fun i hi => ?_, fun i m hi => ?_⟩
    · cases hi
      exact ⟨n, hself⟩
    · rcases Decidable.em (i = s.dir.next) with rfl | hne
      · obtain rfl := Option.some.inj (hi.symm.trans hself)
        exact Function.update_self ..
      · exact (hnode i hne).trans (hcontent i m ((hold i hne).symm.trans hi))

theorem step_kept {a : Action} (h : s.Kept op) (hstep : s.step op opts a = some s') : s'.Kept op := by
  cases a with
  | call ok wrote =>
    cases hstep
    exact call_kept opts ok wrote h
  | save n =>
    rw [Sys.step] at hstep
    split at hstep
    · next hname =>
      cases hstep
      exact put_kept h n s.taken (by simp [hname]) fun i hi => hi
    · next i hname =>
      split at hstep
      · cases hstep
        refine put_kept h n (i :: s.taken) (fun j hj => ?_) fun j hj => List.mem_cons_of_mem i hj
        obtain rfl := Option.some.inj (hname.symm.trans hj)
        exact List.mem_cons_self
      · cases hstep
  | remove =>
    rw [Sys.step] at hstep
    split at hstep
    · cases hstep
    · next i hname =>
      split at hstep
      · cases hstep
      · cases hstep
        obtain ⟨hversions, hfits⟩ := h
        refine ⟨⟨hversions.saved_lt, fun j hj => by (cases hj), hversions.parked_lt, hversions.content,
          fun j m hj hdir => ?_, hversions.deleted⟩, hfits.writer rfl (fun j _ => ⟨rfl, rfl⟩) (fun j hj => ?_) ?_⟩
        · rcases hversions.located j m hj hdir with htaken | hdeleted | hat | hat
          · exact .inl (List.mem_cons_of_mem i htaken)
          · exact .inr (.inl hdeleted)
          · obtain rfl := Option.some.inj (hname.symm.trans hat)
            exact .inl List.mem_cons_self
          · exact .inr (.inr (.inr hat))
        · rcases hj with hj | hj
          · obtain rfl := Option.some.inj (hname.symm.trans hj)
            exact List.mem_cons_self
          · exact List.mem_cons_of_mem i hj
        · rintro ⟨hparked, -, hcontent⟩
          exact ⟨hparked, fun j hj => by (cases hj), hcontent⟩

theorem start_kept (op : Operation) (entry : Option Node) : (start entry).Kept op := by
  have hsaved : ∀ i n, (start entry).saved i = some n → i = 0 ∧ entry = some n := by
    intro i n hi
    rw [start] at hi
    simp only at hi
    split at hi
    · next h => exact ⟨h, hi⟩
    · cases hi
  have hname : ∀ i, (start entry).dir.name = some i → i = 0 ∧ ∃ n, entry = some n := by
    intro i hi
    obtain ⟨n, hn, rfl⟩ := Option.map_eq_some_iff.mp hi
    exact ⟨rfl, n, hn⟩
  have hnode : ∀ i n, (start entry).saved i = some n → (start entry).dir.node i = n := by
    intro i n hi
    obtain ⟨-, rfl⟩ := hsaved i n hi
    rfl
  refine ⟨⟨fun i n hi => ?_, fun i hi => ?_, fun i hi => by (cases hi), fun i n hi => .inl (hnode i n hi),
    fun i n hi _ => ?_, fun i hi => by (cases hi)⟩, rfl, fun i hi => ?_, hnode⟩
  · rw [(hsaved i n hi).1]
    exact Nat.one_pos
  · rw [(hname i hi).1]
    exact Nat.one_pos
  · obtain ⟨rfl, rfl⟩ := hsaved i n hi
    exact .inr (.inr (.inl rfl))
  · obtain ⟨rfl, n, rfl⟩ := hname i hi
    exact ⟨n, rfl⟩

theorem then_name {dir : Option Entries} (hname : s.dir.name = some i)
    (hdir : ∀ d, dir = some d → d.name = some i) : (s.then ok dir stage failed).dir.name = some i := by
  cases dir with
  | none => cases ok <;> exact hname
  | some d =>
    cases ok with
    | false => exact hname
    | true => exact hdir d rfl

theorem fill_name (s : Sys) (f : File) (data : List UInt8) (stage : Stage) :
    (s.fill f data stage).dir.name = s.dir.name := by
  unfold Sys.fill
  split <;> rfl

theorem unlink_name (h : s.dir.unlink = some d) : d.name = s.dir.name := by
  unfold Entries.unlink at h
  split at h
  · split at h
    · cases h
    · cases h
      rfl
  · cases h

/-- Nothing but the park takes a file or a link from the name. -/
theorem call_name (op : Operation) (opts : ParkOptions) (ok : Bool) (wrote : Nat)
    (hstage : ∀ repair, s.stage ≠ .park repair) (hname : s.dir.name = some i)
    (hdir : (s.dir.node i).isDirectory = false) : (s.call op opts ok wrote).dir.name = some i := by
  have hnotEmpty : s.dir.node i ≠ .directory true := by
    intro h
    rw [h] at hdir
    cases hdir
  unfold Sys.call
  cases hs : s.stage <;> simp only
  case park repair => exact absurd hs (hstage repair)
  case lstat =>
    split
    · split <;> exact hname
    · exact hname
  case openParked => split <;> exact hname
  case read =>
    split
    · unfold Sys.judge
      split
      · exact hname
      · split <;> exact hname
    · exact hname
    · exact hname
  case truncate =>
    split
    · exact (fill_name ..).trans hname
    · exact hname
  case write => split <;> exact (fill_name ..).trans hname
  case truncateBack =>
    split
    · exact (fill_name ..).trans hname
    · exact hname
  case writeBack => exact (fill_name ..).trans hname
  case unlinkParked =>
    split
    · next hunlink => exact (unlink_name hunlink).trans hname
    · exact hname
  case lstatParked => split <;> exact hname
  case link =>
    refine then_name hname fun d hd => ?_
    simp only [Entries.link, hname] at hd
    split at hd <;> simp_all
  case unlinkBack => exact then_name hname fun d hd => (unlink_name hd).trans hname
  case mkdir => exact then_name hname fun d hd => by simp [Entries.mkdir, hname] at hd
  case renameBack =>
    refine then_name hname fun d hd => ?_
    cases hparked : s.dir.parked <;> simp [Entries.renameBack, hname, hparked, hnotEmpty] at hd
  case rmdir => exact then_name hname fun d hd => by simp [Entries.rmdir, hname, hnotEmpty] at hd
  case done => exact hname

/-! ## The result -/

namespace Sample

def stale : File := ⟨[111, 108, 100], 420, 1000, 1000⟩

def fresh : File := ⟨[110, 101, 119], 420, 1000, 1000⟩

def removeAny : Operation := .remove fun _ => some true

/-- Only what the caller has seen may go. -/
def removeStale : Operation := .remove fun f => some (f.data = stale.data)

def options : ParkOptions := ⟨none, false⟩

def early : List Action := [.call true 0, .save (.file fresh), .call true 0, .call true 0, .call true 0, .call true 0]

/-- Saved between the `rename` and the put-back of what the judge refused. -/
def late : List Action :=
  [.call true 0, .save (.file fresh), .call true 0, .call true 0, .call true 0, .save (.file stale), .call true 0,
    .call true 0]

end Sample

open Haive.Files.Sample

end Haive.Files
