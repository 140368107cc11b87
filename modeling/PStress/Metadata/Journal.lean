import PStress.Metadata.WithoutCreates

/-! The journal of a run: when a handle acquired its slot's mutex, what it did to its copy of the
table, and what it stored. -/
namespace PStress.Metadata
open Interleaving
variable {ι V : Type}

/-- A completed ALTER: its table, when it acquired the mutex, and all its edits together. -/
structure Commit (V : Type) where
  table : Nat
  turn : Nat
  edit : V → V

/-- When each handle acquired its slot's mutex, what it did to its copy of the table since, and the
completed ALTERs. -/
structure Notes (ι V : Type) where
  acquired : Nat
  turn : ι → Nat
  edits : ι → V → V
  commits : List (Commit V)

namespace Notes

@[simps]
def blank : Notes ι V := ⟨0, fun _ => 0, fun _ => id, []⟩

def commitsOf (b : Notes ι V) (x : Nat) : List (Commit V) := b.commits.filter (·.table = x)

/-- The edits of all completed ALTERs of a table, applied to its first value. -/
def committed (b : Notes ι V) (x : Nat) (v : V) : V :=
  (b.commitsOf x).foldl (fun v c => c.edit v) v

def commit (b : Notes ι V) (i : ι) (p : Option (TablePtr V)) : Notes ι V :=
  p.elim b fun p => { b with commits := b.commits ++ [⟨p.id, b.turn i, b.edits i⟩] }

@[simp] theorem commit_none (b : Notes ι V) (i : ι) : b.commit i none = b := rfl

@[simp] private theorem commit_acquired (b : Notes ι V) (i : ι) (p : Option (TablePtr V)) :
    (b.commit i p).acquired = b.acquired := by
  cases p <;> rfl

@[simp] theorem commit_turn (b : Notes ι V) (i : ι) (p : Option (TablePtr V)) :
    (b.commit i p).turn = b.turn := by
  cases p <;> rfl

@[simp] theorem commit_edits (b : Notes ι V) (i : ι) (p : Option (TablePtr V)) :
    (b.commit i p).edits = b.edits := by
  cases p <;> rfl

theorem commitsOf_commit_of_ne {b : Notes ι V} {i : ι} {p : Option (TablePtr V)} {x : Nat}
    (h : ∀ q ∈ p, q.id ≠ x) : (b.commit i p).commitsOf x = b.commitsOf x := by
  cases p with
  | none => rfl
  | some p => simp [commit, commitsOf, List.filter_append, h p rfl]

theorem commitsOf_commit_self (b : Notes ι V) (i : ι) (p : TablePtr V) :
    (b.commit i (some p)).commitsOf p.id = b.commitsOf p.id ++ [⟨p.id, b.turn i, b.edits i⟩] := by
  simp [commit, commitsOf, List.filter_append]

variable [DecidableEq ι]

/-- What is noted of a step of handle `i` that completes nothing. -/
def note (b : Notes ι V) (i : ι) (t : Thread V) (a : Act V) : Notes ι V :=
  match a, t.pc with
  | .tick, .acquire .. =>
    { b with turn := Function.update b.turn i b.acquired, acquired := b.acquired + 1 }
  | .tick, .load .. => { b with edits := Function.update b.edits i id }
  | .edit f, .idle => { b with edits := Function.update b.edits i (f ∘ b.edits i) }
  | _, _ => b

@[simps -fullyApplied]
def move (b : Notes ι V) (i j : ι) : Notes ι V :=
  { b with
    turn := Function.update b.turn j (b.turn i)
    edits := Function.update b.edits j (b.edits i) }

@[simp] theorem commitsOf_note (b : Notes ι V) (i : ι) (t : Thread V) (a : Act V) (x : Nat) :
    (b.note i t a).commitsOf x = b.commitsOf x := by
  simp only [note]
  split <;> rfl

theorem acquired_le_note (b : Notes ι V) (i : ι) (t : Thread V) (a : Act V) :
    b.acquired ≤ (b.note i t a).acquired := by
  simp only [note]
  split <;> simp

theorem note_others (b : Notes ι V) {i j : ι} (t : Thread V) (a : Act V) (hj : j ≠ i) :
    (b.note i t a).turn j = b.turn j ∧ (b.note i t a).edits j = b.edits j := by
  simp only [note]
  split <;> simp [hj]

/-- What a step adds depends on the turns and edits alone. -/
theorem note_congr {b c : Notes ι V} (hacq : c.acquired = b.acquired) (hturn : c.turn = b.turn)
    (hedits : c.edits = b.edits) (i : ι) (t : Thread V) (a : Act V) :
    (c.note i t a).acquired = (b.note i t a).acquired ∧
      (c.note i t a).turn = (b.note i t a).turn ∧ (c.note i t a).edits = (b.note i t a).edits := by
  simp only [note]
  split <;> simp [hacq, hturn, hedits]

end Notes

/-- The notes of a run in which an ALTER counts as completed once it has stored its table. -/
structure Journal (ι V : Type) extends Notes ι V where
  history : History V

/-- The table that an ALTER stores. -/
def storedBy (t : Thread V) (a : Act V) : Option (TablePtr V) :=
  match a, t.pc with
  | .tick, .alterStore => t.res.table
  | _, _ => none

theorem storedBy_eq_none {t : Thread V} {a : Act V} (h : ¬ (a = .tick ∧ t.pc = .alterStore)) :
    storedBy t a = none := by
  simp only [storedBy]
  split
  · rename_i hpc
    exact absurd ⟨rfl, hpc⟩ h
  · rfl

def Journal.record [DecidableEq ι] (s : State ι V) (l : Label ι V) (b : Journal ι V) :
    Journal ι V :=
  match l with
  | .run i a =>
    ⟨(b.note i (s.threads i) a).commit i (storedBy (s.threads i) a), b.history.record s l⟩
  | .move i j => ⟨b.toNotes.move i j, b.history⟩

/-- What an ALTER knows: all commits to its table are older than its lock, and its copy is the
value they have led to, with its own edits. -/
structure Author (base : List (TablePtr V)) (b : Journal ι V) (i : ι) (t : Thread V) : Prop where
  waiting : ∀ k, t.pc = .load false k → b.turn i < b.acquired ∧
    ∀ q, b.history.contents[k]? = some q → ∀ c ∈ b.commitsOf q.id, c.turn < b.turn i
  editing : t.res.Holding false → t.pc ≠ .alterUnlock → b.turn i < b.acquired ∧
    ∀ q, t.res.table = some q → (∀ c ∈ b.commitsOf q.id, c.turn < b.turn i) ∧
      ∀ p ∈ base, p.id = q.id → q.value = b.edits i (b.committed q.id p.value)

/-- The journal explains the stored values, and commits to a table are in the order of the
acquisitions. -/
structure Journaled (base : List (TablePtr V)) (b : Journal ι V) : Prop where
  values : ∀ q ∈ b.history.contents, ∀ p ∈ base, p.id = q.id →
    q.value = b.committed q.id p.value
  past : ∀ c ∈ b.commits, c.turn < b.acquired
  ordered : ∀ x, ((b.commitsOf x).map Commit.turn).Pairwise (· < ·)

/-- An open ALTER is at rest, looking a table up, or about to store its own. -/
theorem altering {d : InternalData ι V} {cs : List (TablePtr V)} {t : Thread V}
    (ho : PcOk d t.res t.pc) (hp : InPlace d cs t) (hr : t.res.Holding false)
    (hpc : t.pc ≠ .alterUnlock) :
    Backed d t.res ∧ dirty t.res t.pc = [] := by
  have hdrop {b : Bool} (hb : t.res.Holding b) : b = false := hb.2.1.symm.trans hr.2.1
  have hnot_settled : ¬ t.res.Settled := fun hs => hs.not_holding hr
  have hnot_creating : ¬ t.res.Creating := fun hc => hr.index_ne hc.2.2.1
  have resting (h : Resting d t.res) : Backed d t.res := by
    rcases h with hs | hc | ⟨_, hb⟩
    · exact absurd hs hnot_settled
    · exact absurd hc hnot_creating
    · exact hb
  obtain ⟨r, pc⟩ := t
  cases pc with
  | idle => exact ⟨resting ho, rfl⟩
  | lookupLock | lookupLoad | lookupUnlock => exact ⟨resting ho.1, rfl⟩
  | alterStore => exact ⟨ho.2, rfl⟩
  | alterUnlock => exact absurd rfl hpc
  | undefined => exact absurd hp.facts id
  | reserve | unreserve => exact absurd ho hnot_settled
  | acquire | load | abandon => exact absurd ho.1 hnot_settled
  | moveCount | moveReserved | moveClear | moveMoved | moveRelease | innerUnlock | outerUnlock =>
    exact absurd ho.1 hnot_settled
  | createRead | createTest | outerLock => exact absurd ho hnot_creating
  | outerLoad | outerRetry | outerTest | innerLock | innerStore | innerCount =>
    exact absurd ho.1 hnot_creating
  | _ => cases hdrop ho.1

section Steps
variable [DecidableEq ι] [Inhabited V] {base : List (TablePtr V)} {b : Journal ι V} {s : State ι V}
  {i j : ι} {a : Act V} {d' : InternalData ι V} {t' : Thread V}

omit [DecidableEq ι] [Inhabited V] in
private theorem journaled_store {d : InternalData ι V} {r : Reservation V}
    (hp : InPlace d b.history.contents ⟨r, .alterStore⟩) (hr : r.Holding false) (hk : Backed d r)
    (hu : Author base b i ⟨r, .alterStore⟩) (hid : (b.history.contents.map TablePtr.id).Nodup)
    (hj : Journaled base b) :
    (∀ q ∈ change ⟨r, .alterStore⟩ .tick b.history.contents, ∀ p ∈ base, p.id = q.id →
      q.value = (b.commit i r.table).committed q.id p.value) ∧
    ∀ x, (((b.commit i r.table).commitsOf x).map Commit.turn).Pairwise (· < ·) := by
  obtain ⟨p, q, htable, hq, hpq, _⟩ := hp.entry hr hk (by simp [dirty])
  obtain ⟨_, hedit⟩ := hu.editing hr (by simp)
  obtain ⟨holder, hvalue⟩ := hedit p htable
  have htable : r.table = some p := htable
  have hnew : (b.commit i r.table).commitsOf p.id =
      b.commitsOf p.id ++ [⟨p.id, b.turn i, b.edits i⟩] := by
    rw [htable, Notes.commitsOf_commit_self]
  have hold {x : Nat} (hx : p.id ≠ x) :
      (b.commit i r.table).commitsOf x = b.commitsOf x := by
    refine Notes.commitsOf_commit_of_ne fun p' hp' => ?_
    obtain rfl : p = p' := Option.some.inj (htable.symm.trans hp')
    exact hx
  constructor
  · intro q' hq' v hv hvid
    obtain ⟨k, hk⟩ := List.mem_iff_getElem?.mp hq'
    simp only [change, htable, Option.elim_some, List.getElem?_set] at hk
    split at hk
    · split at hk <;> cases hk
      simp only [Notes.committed, hnew, List.foldl_append, List.foldl_cons, List.foldl_nil]
      exact hvalue v hv hvid
    · have hne : p.id ≠ q'.id := hpq ▸ entry_ne hid hq hk (by assumption)
      simp only [Notes.committed, hold hne]
      exact hj.values q' (List.mem_of_getElem? hk) v hv hvid
  · intro x
    by_cases hx : p.id = x
    · subst hx
      rw [hnew, List.map_append, List.pairwise_append]
      refine ⟨hj.ordered p.id, by simp, fun m hm n hn => ?_⟩
      obtain ⟨c, hc, rfl⟩ := List.mem_map.mp hm
      obtain rfl : n = b.turn i := by simpa using hn
      exact holder c hc
    · rw [hold hx]
      exact hj.ordered x

omit [Inhabited V] in
theorem journaled_step (ho : PcOk s.data (s.threads i).res (s.threads i).pc)
    (hp : InPlace s.data b.history.contents (s.threads i)) (hn : NeverCreates (s.threads i))
    (hu : Author base b i (s.threads i)) (hid : (b.history.contents.map TablePtr.id).Nodup)
    (hj : Journaled base b) : Journaled base (Journal.record s (.run i a) b) := by
  by_cases hs : a = .tick ∧ (s.threads i).pc = .alterStore
  · obtain ⟨rfl, hpc⟩ := hs
    simp only [Journal.record, History.record]
    generalize s.threads i = t at *
    obtain ⟨r, pc⟩ := t
    obtain rfl : pc = .alterStore := hpc
    obtain ⟨hvalues, hordered⟩ := journaled_store hp ho.1 ho.2 hu hid hj
    refine ⟨hvalues, fun c hc => ?_, hordered⟩
    have hturn := (hu.editing ho.1 (by simp)).1
    change c ∈ (b.commit i r.table).commits at hc
    change c.turn < (b.commit i r.table).acquired
    rw [Notes.commit_acquired]
    cases htable : r.table with
    | none =>
      rw [htable] at hc
      exact hj.past c hc
    | some p =>
      rw [htable] at hc
      rcases List.mem_append.mp hc with hc | hc
      · exact hj.past c hc
      · obtain rfl := List.mem_singleton.mp hc
        exact hturn
  · have hnone : storedBy (s.threads i) a = none := storedBy_eq_none hs
    have hold (x : Nat) : (Journal.record s (.run i a) b).commitsOf x = b.commitsOf x := by
      simp only [Journal.record, hnone]
      exact Notes.commitsOf_note b.toNotes i (s.threads i) a x
    refine ⟨fun q hq p hp' hpq => ?_, fun c hc => ?_, fun x => ?_⟩
    · simp only [Notes.committed, hold]
      exact hj.values q (mem_of_mem_change ho hn hs hq) p hp' hpq
    · have hle : b.acquired ≤ (Journal.record s (.run i a) b).acquired := by
        simpa [Journal.record, hnone] using b.acquired_le_note i (s.threads i) a
      have hmem : c ∈ (Journal.record s (.run i a) b).commitsOf c.table := by
        simpa [Notes.commitsOf] using hc
      rw [hold] at hmem
      exact (hj.past c (List.mem_of_mem_filter hmem)).trans_le hle
    · rw [hold]
      exact hj.ordered x

omit [DecidableEq ι] [Inhabited V] in
/-- An ALTER's knowledge outlives the steps of the others: they commit to other tables. -/
theorem Author.stable {b' : Journal ι V} {d : InternalData ι V} {t : Thread V}
    (hu : Author base b i t) (ho : PcOk d t.res t.pc) (hp : InPlace d b.history.contents t)
    (hturn : b'.turn i = b.turn i) (hedits : b'.edits i = b.edits i)
    (hacq : b.acquired ≤ b'.acquired)
    (hentry : ∀ k ∈ t.held, b'.history.contents[k]? = b.history.contents[k]?)
    (hcom : ∀ k ∈ t.held, ∀ q, b.history.contents[k]? = some q →
      b'.commitsOf q.id = b.commitsOf q.id) : Author base b' i t := by
  refine ⟨fun k hpc => ?_, fun hr hpc => ?_⟩
  · obtain ⟨hlt, hq⟩ := hu.waiting k hpc
    have hk : k ∈ t.held := by simp [Thread.held, hpc, Pc.held]
    refine ⟨by omega, fun q hq' c hc => ?_⟩
    rw [hentry k hk] at hq'
    rw [hcom k hk q hq'] at hc
    rw [hturn]
    exact hq q hq' c hc
  · obtain ⟨hlt, hq⟩ := hu.editing hr hpc
    refine ⟨by omega, fun p htable => ?_⟩
    obtain ⟨holder, hvalue⟩ := hq p htable
    have hsame : b'.commitsOf p.id = b.commitsOf p.id := by
      obtain ⟨p', q, htable', hentry', hid, _⟩ := hp.entry hr (altering ho hp hr hpc).1
        (by simp [(altering ho hp hr hpc).2])
      cases htable.symm.trans htable'
      rw [← hid]
      exact hcom _ (hr.index_mem t.pc) q hentry'
    have hcommitted (v : V) : b'.committed p.id v = b.committed p.id v := by
      simp only [Notes.committed, hsame]
    refine ⟨?_, fun v hv hid => ?_⟩
    · rw [hsame, hturn]
      exact holder
    · rw [hedits, hcommitted]
      exact hvalue v hv hid

omit [DecidableEq ι] [Inhabited V] in
/-- A handle without an open ALTER has nothing to know. -/
theorem Author.of_not_holding {t : Thread V} (hpc : ∀ k, t.pc ≠ .load false k)
    (hr : ¬ t.res.Holding false) : Author base b i t :=
  ⟨fun k h => absurd h (hpc k), fun h => absurd h hr⟩

omit [DecidableEq ι] [Inhabited V] in
/-- An ALTER that is already open goes on with what it knows. -/
theorem Author.of_open {t : Thread V} (hpc : ∀ k, t.pc ≠ .load false k)
    (h : t.res.Holding false → t.pc ≠ .alterUnlock → b.turn i < b.acquired ∧
      ∀ q, t.res.table = some q → (∀ c ∈ b.commitsOf q.id, c.turn < b.turn i) ∧
        ∀ p ∈ base, p.id = q.id → q.value = b.edits i (b.committed q.id p.value)) :
    Author base b i t :=
  ⟨fun k h => absurd h (hpc k), h⟩

/-- An ALTER's own step: it takes the newest turn with the mutex, starts from the committed value
with the copy, and its edits are those made to the copy. -/
theorem author_own (h : act i a s.data (s.threads i) = some (d', t')) (ho : AllOwned s)
    (hd : Dense s b.history.contents) (hn : NeverCreates (s.threads i))
    (hu : Author base b i (s.threads i)) (hj : Journaled base b) :
    Author base (Journal.record s (.run i a) b) i t' := by
  have hok := (ho i).ok
  have hin := hd.inPlace i
  simp only [Journal.record, History.record]
  generalize s.threads i = t at *
  obtain ⟨r, pc⟩ := t
  rcases act_eq_some h with ⟨rfl, ht⟩ | ⟨rfl, hc⟩
  · cases pc with
    | acquire drop idx =>
      simp only [tick] at ht
      split at ht <;> cases ht
      refine ⟨fun k _ => ?_, fun hr => ?_⟩
      · simp only [Notes.note, storedBy, Notes.commit_none, Function.update_self]
        exact ⟨Nat.lt_succ_self _, fun q _ c hc => hj.past c (List.mem_of_mem_filter hc)⟩
      · exact absurd hr hok.1.not_holding
    | load drop idx =>
      simp only [tick] at ht
      split at ht <;> cases ht
      · exact .of_not_holding (by simp) hok.1.not_holding
      · rename_i p hp
        refine .of_open (by simp) fun hr _ => ?_
        obtain rfl : drop = false := hr.2.1
        obtain ⟨hlt, holder⟩ := hu.waiting idx rfl
        have hentry : b.history.contents[idx]? = some p :=
          (hin.clean idx (by simp [Thread.held, Pc.held]) (by simp [dirty])).cell.symm.trans hp
        refine ⟨hlt, fun q hq => ?_⟩
        obtain rfl : p = q := Option.some.inj hq
        refine ⟨holder p hentry, fun v hv hid => ?_⟩
        simp only [Notes.note, storedBy, Notes.commit_none, Function.update_self, id]
        exact hj.values p (List.mem_of_getElem? hentry) v hv hid
    | alterStore =>
      cases ht
      exact .of_open (by simp) fun _ hpc => absurd rfl hpc
    | lookupLock =>
      simp only [tick] at ht
      split at ht <;> cases ht
      exact .of_open (by simp) fun hr _ => hu.editing hr (by simp)
    | lookupLoad | lookupUnlock =>
      cases ht
      exact .of_open (by simp) fun hr _ => hu.editing hr (by simp)
    | idle | undefined => cases ht
    | reserve => exact absurd rfl hn.reserve
    | unreserve | abandon | alterUnlock | dropUnlock | moveUnlock =>
      cases ht
      exact .of_not_holding (by simp) fun hr => by cases hr.2.2.1
    | innerUnlock n o =>
      cases ht
      exact .of_not_holding (by cases o <;> simp) hok.1.not_holding
    | moveCount | moveReserved | moveClear | moveMoved | moveRelease | outerUnlock =>
      cases ht
      exact .of_not_holding (by simp) hok.1.not_holding
    | createRead | createTest | outerLock => exact absurd hok hn.not_creating
    | outerLoad | outerTest | outerRetry | innerLock | innerStore | innerCount =>
      exact absurd hok.1 hn.not_creating
    | _ =>
      simp only [tick] at ht
      (repeat' split at ht) <;> cases ht <;>
        exact .of_not_holding (by simp) fun hr => by cases hr.2.1.symm.trans hok.1.2.1
  · cases called_of_call hc hok with
    | lookup | store => exact .of_open (by simp) fun hr _ => hu.editing hr (by simp)
    | editAlter f hr hk =>
      refine .of_open (by simp) fun _ _ => ?_
      obtain ⟨hlt, hq⟩ := hu.editing hr (by simp)
      refine ⟨hlt, fun q htable => ?_⟩
      obtain ⟨p, hp, rfl⟩ := Option.map_eq_some_iff.mp htable
      obtain ⟨holder, hvalue⟩ := hq p hp
      refine ⟨holder, fun v hv hid => ?_⟩
      simp only [Notes.note, storedBy, Notes.commit_none, Function.update_self, Function.comp_apply]
      exact congrArg f (hvalue v hv hid)
    | editCreate f hr | create hr | giveBack hr => exact absurd hr hn.not_creating
    | remove hr => exact .of_not_holding (by simp) fun hr' => by cases hr'.2.1.symm.trans hr.2.1
    | reserve hs | alter idx hs | drop idx hs =>
      exact .of_not_holding (by simp) hs.not_holding
    | refuse | release => exact .of_not_holding (by simp) fun hr => by cases hr.2.2.1

end Steps
end PStress.Metadata
