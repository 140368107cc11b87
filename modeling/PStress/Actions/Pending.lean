import PStress.Actions.Admission

/-! Changes of the number of tables that are announced and not made yet: a CREATE and a DROP test
the size before they make their reservation and change it when they complete. -/
namespace PStress.Actions
open Interaction Interleaving Metadata Program
variable {ι : Type}

def toInsert (t : Thread Table) : Nat :=
  match t.pc with
  | .reserve => 1
  | _ => t.creates

def toRemove (t : Thread Table) : Nat :=
  match t.pc with
  | .idle | .lookupLock _ | .lookupLoad _ | .lookupUnlock _ =>
    if t.res.isOpen && t.res.drop then 1 else 0
  | .acquire true _ | .load true _ | .dropTest | .dropClear | .dropCount | .lastRead
  | .lastLock _ | .lastLoad _ | .lastTest _ | .lastRetry _ | .moveLoad _ | .moveStore ..
  | .moveUnlock _ | .moveCount _ => 1
  | _ => 0

private theorem toInsert_settled {r : Reservation Table} (h : r.Settled) :
    toInsert ⟨r, .idle⟩ = 0 := creates_settled h

private theorem toRemove_not_open {r : Reservation Table} (h : r.isOpen = false) :
    toRemove ⟨r, .idle⟩ = 0 := by
  simp [toRemove, h]

variable [DecidableEq ι]

/-- A step of an operation changes `tableCount` as announced. -/
theorem tick_limits {i : ι} {d d' : InternalData ι Table} {r : Reservation Table} {pc : Pc Table}
    {t' : Thread Table} (h : tick i d r pc = some (d', t')) (ho : PcOk d r pc)
    (hr : toRemove ⟨r, pc⟩ ≤ d.tableCount) :
    d'.tableCount + toInsert t' ≤ d.tableCount + toInsert ⟨r, pc⟩ ∧
      d.tableCount + toRemove t' ≤ d'.tableCount + toRemove ⟨r, pc⟩ := by
  have rests {r' : Reservation Table} (hs : r'.Settled) :
      toInsert ⟨r', .idle⟩ = 0 ∧ toRemove ⟨r', .idle⟩ = 0 :=
    ⟨toInsert_settled hs, toRemove_not_open hs.not_open⟩
  cases pc with
  | idle | undefined => cases h
  | reserve =>
    simp only [tick] at h
    split at h <;> cases h
    · have hs (pc) : Thread.creates ⟨r, pc⟩ = 0 := creates_settled ho
      simp [toInsert, toRemove, hs]
    · simp [toInsert, toRemove, Thread.creates]
  | unreserve | abandon =>
    cases h
    obtain ⟨h₁, h₂⟩ := rests Reservation.settled_closed
    rw [h₁, h₂]
    exact ⟨by simp, by simp⟩
  | load b k =>
    have hs (pc) : Thread.creates ⟨r, pc⟩ = 0 := creates_settled ho.1
    simp only [tick] at h
    split at h <;> cases h
    · simp [toInsert, toRemove, hs]
    · have hb : Reservation.Holding b ⟨true, some ‹_›, b, k, some k⟩ :=
        ⟨rfl, rfl, rfl, ho.2, rfl⟩
      have hc : toInsert ⟨⟨true, some ‹_›, b, k, some k⟩, .idle⟩ = 0 := creates_holding hb
      rw [hc]
      cases b
      · simp [toRemove]
      · simp [toRemove, hb.isOpen]
  | alterUnlock | dropUnlock =>
    cases h
    obtain ⟨h₁, h₂⟩ := rests (show Reservation.Settled { r with lock := none } from
      ⟨rfl, .inr ho.1.index_ne⟩)
    rw [h₁, h₂]
    exact ⟨by simp, by simp⟩
  | moveRelease | outerUnlock =>
    cases h
    obtain ⟨h₁, h₂⟩ := rests ho.1
    rw [h₁, h₂]
    exact ⟨by simp, by simp⟩
  | innerUnlock n o =>
    cases h
    obtain ⟨h₁, h₂⟩ := rests ho.1
    cases o
    · simp [h₁, h₂]
    · simp [toInsert, toRemove, Thread.creates]
  | dropCount | moveCount =>
    cases h
    simp only [toRemove] at hr
    have hdec := decrement_of_pos hr
    simp [toInsert, toRemove, Thread.creates, hdec]
    omega
  | innerCount n o =>
    cases h
    have hs : Thread.creates (⟨r, .innerCount n o⟩ : Thread Table) = 1 := creates_creating ho.1
    have hs' (pc) : Thread.creates (V := Table) ⟨{ r with index := n }, pc⟩ = 0 :=
      creates_settled ⟨ho.1.2.2.2.1, .inr (ho.2.1.trans maximumTableCount_lt_npos).ne⟩
    simp [toInsert, toRemove, hs, hs']
  | acquire b k =>
    simp only [tick] at h
    split at h <;> cases h
    cases b <;> simp [toInsert, toRemove, Thread.creates]
  | _ =>
    simp only [tick] at h
    (repeat' split at h) <;> cases h <;> simp [toInsert, toRemove, Thread.creates]

def callInserts : Act Table → Nat
  | .createTable => 1
  | _ => 0

def callRemoves : Act Table → Nat
  | .dropTable _ => 1
  | _ => 0

def Request.inserts : Request → Nat
  | .createTable => 1
  | _ => 0

def Request.reservesDrop : Request → Nat
  | .dropTable _ => 1
  | _ => 0

def Request.removes : Request → Nat
  | .size .bound | .random .. | .dropTable _ => 1
  | _ => 0

section Requests
variable {d d' : InternalData ι Table} {r : Reservation Table} {t' : Thread Table}

omit [DecidableEq ι] in
private theorem called_limits {a : Act Table} (h : Called d r a d' t') :
    d'.tableCount = d.tableCount ∧
      toInsert t' ≤ callInserts a + toInsert ⟨r, .idle⟩ ∧
      toRemove t' ≤ callRemoves a + toRemove ⟨r, .idle⟩ := by
  cases h with
  | reserve | alter | drop | lookup | create | store =>
    simp [toInsert, toRemove, Thread.creates, callInserts, callRemoves]
  | refuse =>
    have hopen : (Reservation.closed : Reservation Table).isOpen = false := rfl
    simp [toInsert_settled Reservation.settled_closed, toRemove_not_open hopen]
  | editCreate | editAlter =>
    simp [toInsert, toRemove, Thread.creates, Reservation.isOpen]
  | remove hb =>
    simp [toInsert, toRemove, Thread.creates, hb.isOpen, hb.2.1]
  | giveBack | release =>
    have hs := Reservation.settled_cancelled r
    simp [toInsert_settled hs, toRemove_not_open hs.not_open]

omit [DecidableEq ι] in
theorem serve_limits {x : Input} {q : Request} {ans : Option q.Answer}
    (h : serve x d r q = some (d', t', ans)) (hr : Resting d r) :
    d'.tableCount = d.tableCount ∧ toInsert t' ≤ q.inserts + toInsert ⟨r, .idle⟩ ∧
      toRemove t' ≤ q.reservesDrop + toRemove ⟨r, .idle⟩ := by
  cases q with
  | size | isOpen | table | index =>
    cases h
    exact ⟨rfl, Nat.le_add_left .., Nat.le_add_left ..⟩
  | random | real | executeQuery =>
    simp only [serve] at h
    (repeat' split at h) <;> cases h
    all_goals exact ⟨rfl, Nat.le_add_left .., Nat.le_add_left ..⟩
  | createTable | alterTable | dropTable | lookup | write | complete =>
    obtain ⟨y, hy, he⟩ := Option.map_eq_some_iff.mp h
    cases he
    exact called_limits (called_of_call hy hr)

end Requests

section Programs
variable {config : DdlConfig} {drops : Bool} {st : Stage} {q : Request} {p : Execution Unit}

private theorem Stage.may_inserts (h : st.may drops q) :
    q.inserts = if st = .calling ∧ drops = false then 1 else 0 := by
  cases st with
  | testing =>
    obtain rfl : q = .size .guard := h
    simp [Request.inserts]
  | picking =>
    obtain ⟨_, rfl⟩ := h
    simp [Request.inserts]
  | drawing =>
    obtain ⟨_, _, _, _, rfl⟩ := h
    simp [Request.inserts]
  | calling =>
    cases drops
    · obtain rfl : q = .createTable := h
      simp [Request.inserts]
    · obtain ⟨idx, rfl⟩ : ∃ idx, q = .dropTable idx := h
      simp [Request.inserts]
  | past =>
    cases q with
    | createTable => cases h
    | _ => simp [Request.inserts]

private theorem Stage.may_removes (h : st.may true q) :
    q.removes = if st = .testing ∨ st = .past then 0 else 1 := by
  cases st with
  | testing =>
    obtain rfl : q = .size .guard := h
    simp [Request.removes]
  | picking =>
    obtain ⟨_, rfl⟩ := h
    simp [Request.removes]
  | drawing =>
    obtain ⟨_, _, _, _, rfl⟩ := h
    simp [Request.removes]
  | calling =>
    obtain ⟨idx, rfl⟩ : ∃ idx, q = .dropTable idx := h
    simp [Request.removes]
  | past =>
    cases q with
    | size | random | dropTable => cases h
    | _ => simp [Request.removes]

/-- The reservation a program is about to make. -/
def insertsNext (p : Execution Unit) : Nat := p.head.elim 0 Request.inserts

/-- The step of a DROP towards its reservation that a program is about to make. -/
def removesNext (p : Execution Unit) : Nat := p.head.elim 0 Request.removes

private theorem insertsNext_le (h : Ordered config drops st p) :
    insertsNext p ≤ if st = .calling ∧ drops = false then 1 else 0 := by
  cases p with
  | done | stop => exact Nat.zero_le _
  | ask q k => exact (Stage.may_inserts h.1).le

private theorem removesNext_le (h : Ordered config true st p) :
    removesNext p ≤ if st = .testing ∨ st = .past then 0 else 1 := by
  cases p with
  | done | stop => exact Nat.zero_le _
  | ask q k => exact (Stage.may_removes h.1).le

omit [DecidableEq ι] in
private theorem late_eq_none {d : InternalData ι Table} (h : st.may drops q) : late d q = none := by
  cases q with
  | lookup idx =>
    cases st with
    | testing => cases h
    | picking => cases h.2
    | drawing => obtain ⟨_, _, _, _, ⟨⟩⟩ := h
    | calling =>
      cases drops
      · cases (show Request.lookup idx = .createTable from h)
      · obtain ⟨_, ⟨⟩⟩ : ∃ k, Request.lookup idx = .dropTable k := h
    | past => cases h
  | _ => rfl

omit [DecidableEq ι] in
theorem deliver_ordered {d : InternalData ι Table} {pc : Pc Table}
    (h : Ordered config drops st p) : deliver d pc p = p := by
  unfold deliver
  split
  · rw [late_eq_none h.1]
    rfl
  · rfl

omit [DecidableEq ι] in
private theorem serve_answered {x : Input} {d d' : InternalData ι Table} {r : Reservation Table}
    {t' : Thread Table} {ans : Option q.Answer} (h : serve x d r q = some (d', t', ans))
    (hm : st.may drops q) : ∃ a, ans = some a := by
  cases q with
  | lookup idx => cases late_eq_none (d := d) hm
  | createTable | alterTable | dropTable | write | complete =>
    obtain ⟨y, _, he⟩ := Option.map_eq_some_iff.mp h
    cases he
    exact ⟨(), rfl⟩
  | size | isOpen | table | index =>
    cases h
    exact ⟨_, rfl⟩
  | random | real | executeQuery =>
    simp only [serve] at h
    (repeat' split at h) <;> cases h
    all_goals exact ⟨_, rfl⟩

/-- What the test of a CREATE lets through. -/
def admitsCreate (config : DdlConfig) (drops : Bool) (q : Request) (n : Nat) : Nat :=
  if q = .size .guard ∧ drops = false ∧ n < config.max_table_count then 1 else 0

/-- What the test of a DROP lets through. -/
def admitsDrop (config : DdlConfig) (drops : Bool) (q : Request) (n : Nat) : Nat :=
  if q = .size .guard ∧ drops = true ∧ config.min_table_count < n then 1 else 0

section Answered
variable {x : Input} {d d' : InternalData ι Table} {r : Reservation Table} {t' : Thread Table}

variable (config) in
omit [DecidableEq ι] in
private theorem next_calling_le {a : q.Answer} (hm : st.may drops q)
    (h : serve x d r q = some (d', t', some a)) :
    (if st.next config drops q a = .calling ∧ drops = false then 1 else 0) ≤
      admitsCreate config drops q d.tableCount := by
  cases st with
  | testing =>
    obtain rfl : q = .size .guard := hm
    cases h
    cases drops
    · simp only [Stage.next, admitsCreate, Bool.false_eq_true, if_false]
      by_cases hn : config.max_table_count ≤ d.tableCount
      · simp [hn]
      · simp [Nat.lt_of_not_le hn]
    · simp
  | picking | drawing => simp [hm.1]
  | calling | past => simp

variable (config) in
omit [DecidableEq ι] in
private theorem next_removing_le {a : q.Answer} (hm : st.may true q)
    (h : serve x d r q = some (d', t', some a)) :
    (if st.next config true q a = .testing ∨ st.next config true q a = .past then 0 else 1) +
        q.reservesDrop ≤
      q.removes + admitsDrop config true q d.tableCount := by
  cases st with
  | testing =>
    obtain rfl : q = .size .guard := hm
    cases h
    simp only [Stage.next, admitsDrop, if_true]
    by_cases hn : d.tableCount ≤ config.min_table_count
    · simp [hn, Request.reservesDrop]
    · simp [hn, Nat.lt_of_not_le hn, Request.reservesDrop]
  | picking =>
    obtain ⟨_, rfl⟩ := hm
    simp [Stage.next, Request.removes, Request.reservesDrop]
  | drawing =>
    obtain ⟨_, _, _, _, rfl⟩ := hm
    simp [Stage.next, Request.removes, Request.reservesDrop]
  | calling =>
    obtain ⟨idx, rfl⟩ : ∃ idx, q = .dropTable idx := hm
    simp [Request.removes, Request.reservesDrop]
  | past =>
    cases q with
    | dropTable => cases hm
    | _ => simp [Request.reservesDrop]

omit [DecidableEq ι] in
/-- A request announces a change only when a test lets it through. -/
theorem go_limits {k : q.Answer → Execution Unit} {ans : Option q.Answer}
    (ho : Ordered config drops st (.ask q k)) (h : serve x d r q = some (d', t', ans))
    (hr : Resting d r) :
    (∃ st', Ordered config drops st' (resume q k ans)) ∧
      insertsNext (resume q k ans) + toInsert t' ≤
        q.inserts + toInsert ⟨r, .idle⟩ + admitsCreate config drops q d.tableCount ∧
      (drops = true → removesNext (resume q k ans) + toRemove t' ≤
        q.removes + toRemove ⟨r, .idle⟩ + admitsDrop config drops q d.tableCount) ∧
      (drops = false → toRemove t' ≤ toRemove ⟨r, .idle⟩) := by
  obtain ⟨hm, hn⟩ := ho
  obtain ⟨a, rfl⟩ := serve_answered h hm
  obtain ⟨_, hins, hrem⟩ := serve_limits h hr
  have hnext : Ordered config drops (st.next config drops q a) (k a) :=
    hn a _ ⟨serve_given h, rfl⟩
  refine ⟨⟨_, hnext⟩, ?_, ?_, ?_⟩
  · have hi := insertsNext_le hnext
    have hle := next_calling_le config hm h
    simp only [resume]
    omega
  · rintro rfl
    have hi := removesNext_le hnext
    have hle := next_removing_le config hm h
    simp only [resume]
    omega
  · rintro rfl
    have hnone : q.reservesDrop = 0 := by
      cases st with
      | testing =>
        obtain rfl : q = .size .guard := hm
        rfl
      | picking | drawing => cases hm.1
      | calling =>
        obtain rfl : q = .createTable := hm
        rfl
      | past =>
        cases q with
        | dropTable => cases hm
        | _ => rfl
    omega

end Answered
end Programs
end PStress.Actions
