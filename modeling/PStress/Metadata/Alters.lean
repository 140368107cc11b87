import PStress.Metadata.Completions
import PStress.Metadata.Journal

/-! Committed ALTERs: the ones on which `complete()` was called are in the journal by the time it
returns. -/
namespace PStress.Metadata
open Interleaving
variable {ι V : Type}

section Runs
variable [DecidableEq ι] [Inhabited V] {s s' : State ι V} {b : Journal ι V}

/-- The journal explains the values, and every ALTER knows what it has to. -/
structure Explained (base : List (TablePtr V)) (s : State ι V) (b : Journal ι V) : Prop where
  journaled : Journaled base b
  author : ∀ i, Author base b i (s.threads i)

omit [DecidableEq ι] [Inhabited V] in
private theorem owner_eq {i j : ι} (ho : AllOwned s)
    (hid : (b.history.contents.map TablePtr.id).Nodup) {k l : Nat} {p q : TablePtr V}
    (hk : k ∈ (s.threads i).held) (hl : l ∈ (s.threads j).held)
    (hp : b.history.contents[k]? = some p) (hq : b.history.contents[l]? = some q)
    (hpq : p.id = q.id) : i = j := by
  obtain rfl : k = l := by_contra fun hne => entry_ne hid hp hq hne hpq
  have hi := ((ho i).writer k).mpr hk
  have hj := ((ho j).writer k).mpr hl
  exact Option.some.inj (hi.symm.trans hj)

omit [DecidableEq ι] [Inhabited V] in
private theorem altered_entry {i : ι} {p : TablePtr V} (ho : AllOwned s)
    (hd : Dense s b.history.contents) (hr : (s.threads i).res.Holding false)
    (hpc : (s.threads i).pc ≠ .alterUnlock) (hp : (s.threads i).res.table = some p) :
    (s.threads i).res.index ∈ (s.threads i).held ∧
      ∃ q, b.history.contents[(s.threads i).res.index]? = some q ∧ q.id = p.id := by
  obtain ⟨hk, hclean⟩ := altering (ho i).ok (hd.inPlace i) hr hpc
  obtain ⟨p', q, hp', hq, hid, _⟩ := (hd.inPlace i).entry hr hk (by simp [hclean])
  obtain rfl : p' = p := Option.some.inj (hp'.symm.trans hp)
  exact ⟨hr.index_mem _, q, hq, hid⟩

omit [DecidableEq ι] [Inhabited V] in
private theorem holding_of_alterStore {i : ι} (ho : AllOwned s)
    (hpc : (s.threads i).pc = .alterStore) :
    (s.threads i).res.Holding false ∧ (s.threads i).pc ≠ .alterUnlock := by
  have hok := (ho i).ok
  rw [hpc] at hok
  exact ⟨hok.1, by simp [hpc]⟩

omit [Inhabited V] in
/-- Others commit to other tables than those in the slots a handle owns. -/
private theorem commitsOf_owned {i j : ι} {a : Act V} (hj : j ≠ i) (ho : AllOwned s)
    (hd : Dense s b.history.contents) (hid : (b.history.contents.map TablePtr.id).Nodup) {k : Nat}
    (hk : k ∈ (s.threads j).held) {q : TablePtr V} (hq : b.history.contents[k]? = some q) :
    (Journal.record s (.run i a) b).commitsOf q.id = b.commitsOf q.id := by
  refine (Notes.commitsOf_commit_of_ne fun p hp => ?_).trans (b.commitsOf_note i _ a q.id)
  obtain ⟨hpc, hp⟩ : (s.threads i).pc = .alterStore ∧ (s.threads i).res.table = some p := by
    simp only [storedBy] at hp
    split at hp
    · exact ⟨by assumption, hp⟩
    · cases hp
  obtain ⟨hr, hopen⟩ := holding_of_alterStore ho hpc
  obtain ⟨hmem, q', hq', hpq⟩ := altered_entry ho hd hr hopen hp
  exact fun hne => hj (owner_eq ho hid hk hmem hq hq' (hne.symm.trans hpq.symm))

omit [Inhabited V] in
private theorem explained_move [Inhabited V] {base : List (TablePtr V)} {i j : ι}
    (h : step s (.move i j) = some s') (hx : Explained base s b) :
    Explained base s' (Journal.record s (.move i j) b) := by
  obtain ⟨r, r', hi, hj, hij, hr, hr', rfl⟩ := step_move h
  refine ⟨⟨hx.journaled.values, hx.journaled.past, hx.journaled.ordered⟩, fun k => ?_⟩
  by_cases hkj : k = j
  · have hu := hx.author i
    rw [hi] at hu
    subst hkj
    simp only [Function.update_self]
    refine .of_open (by simp) fun hr hpc => ?_
    simpa [Journal.record, Notes.committed, Notes.commitsOf] using hu.editing hr hpc
  · by_cases hki : k = i
    · subst hki
      simp only [Function.update_of_ne hkj, Function.update_self]
      exact .of_not_holding (by simp) fun hr => by cases hr.2.2.1
    · have hu := hx.author k
      simp only [Function.update_of_ne hkj, Function.update_of_ne hki]
      constructor
      · simpa [Journal.record, Notes.commitsOf, hkj] using hu.waiting
      · simpa [Journal.record, Notes.committed, Notes.commitsOf, hkj] using hu.editing

private theorem explained_step [Fintype ι] {base : List (TablePtr V)} {l : Label ι V}
    (h : step s l = some s') (ho : AllOwned s) (hc : Counted s) (hd : Dense s b.history.contents)
    (hg : EmptyStable s l) (hn : ∀ i, NeverCreates (s.threads i))
    (hid : (b.history.contents.map TablePtr.id).Nodup) (hx : Explained base s b) :
    Explained base s' (Journal.record s l b) := by
  cases l with
  | move i j => exact explained_move h hx
  | run i a =>
    obtain ⟨d', t', ha, rfl⟩ := step_run.mp h
    have hkept := act_kept ha (ho i) (hd.inPlace i) (known_run hc hd hg)
    refine ⟨journaled_step (ho i).ok (hd.inPlace i) (hn i) (hx.author i) hid hx.journaled,
      fun j => ?_⟩
    by_cases hj : j = i
    · subst hj
      simpa using author_own ha ho hd (hn j) (hx.author j) hx.journaled
    · obtain ⟨hturn, hedits⟩ := b.note_others (s.threads i) a hj
      have hacq := b.acquired_le_note i (s.threads i) a
      simp only [Function.update_of_ne hj]
      refine (hx.author j).stable (ho j).ok (hd.inPlace j) (by simpa [Journal.record] using hturn)
        (by simpa [Journal.record] using hedits) (by simpa [Journal.record] using hacq)
        (fun k hk => ?_) fun k hk q hq => commitsOf_owned hj ho hd hid hk hq
      refine (hkept.leaves fun hi => ?_).entry
      have hjk := ((ho j).writer k).mpr hk
      exact hj (Option.some.inj (hjk.symm.trans hi))

private theorem traced_of_journal [Fintype ι] {g : GapFree V}
    (hr : Reach (recorded step Journal.record) (fun x l => NoCreate x.1 l)
      (g.start, ⟨.blank, ⟨g.tables, [], []⟩⟩) (s, b)) :
    AllOwned s ∧ Counted s ∧ Dense s b.history.contents ∧ Traced g.tables s b.history := by
  have hp : Reach (recorded step History.record) (fun x l => NoCreate x.1 l)
      (g.start, ⟨g.tables, [], []⟩) (s, b.history) :=
    hr.project Journal.history fun s l b => by cases l <;> rfl
  exact traced_of_reach (fun _ _ h _ => emptyStable_of_noCreate h) (allOwned_start g)
    (counted_start g) (dense_start g) (traced_start g) hp

private theorem explained_of_reach [Fintype ι] {g : GapFree V}
    (hr : Reach (recorded step Journal.record) (fun x l => NoCreate x.1 l)
      (g.start, ⟨.blank, ⟨g.tables, [], []⟩⟩) (s, b)) :
    Explained g.tables s b := by
  refine hr.invariant_with (I := fun x => Explained g.tables x.1 x.2)
    (J := fun x => Reach step NoCreate g.start x.1 ∧ AllOwned x.1 ∧ Counted x.1 ∧
      Dense x.1 x.2.history.contents ∧ Traced g.tables x.1 x.2.history)
    (fun x hx => ⟨hx.forget, traced_of_journal hx⟩) ?_ ?_
  · refine ⟨⟨fun q hq p hp hid => ?_, by simp, by simp [Notes.commitsOf]⟩,
      fun i => .of_not_holding (by simp [GapFree.start, State.at]) fun hr => by cases hr.2.2.1⟩
    rw [List.inj_on_of_nodup_map g.distinct hp hq hid]
    simp [Notes.committed, Notes.commitsOf]
  · rintro ⟨s, b⟩ l ⟨s', b'⟩ ⟨hreach, ho, hc, hd, ht⟩ _ hx hg he
    obtain ⟨hs, rfl⟩ := recorded_eq_some.mp he
    exact explained_step hs ho hc hd (emptyStable_of_noCreate hreach)
      (neverCreates_of_reach hreach) ht.nodup_contents hx

end Runs

/-- The notes of a run in which an ALTER counts as completed once `complete()` is called on it. -/
structure Chronicle (ι V : Type) extends Notes ι V where
  completed : Completed V

def newlyAltered (t : Thread V) (a : Act V) : Option (TablePtr V) :=
  match a, t.pc with
  | .complete, .idle => if t.res.index ≠ npos ∧ ¬ t.res.drop then t.res.table else none
  | _, _ => none

def Chronicle.record [DecidableEq ι] (s : State ι V) (l : Label ι V) (c : Chronicle ι V) :
    Chronicle ι V :=
  match l with
  | .run i a =>
    ⟨(c.note i (s.threads i) a).commit i (newlyAltered (s.threads i) a), c.completed.record s l⟩
  | .move i j => ⟨c.toNotes.move i j, c.completed⟩

/-- The ALTERs of `c` are those of `b` and the ones that have yet to store their tables. -/
structure Ahead (s : State ι V) (c b : Notes ι V) : Prop where
  stored : ∀ x, (∀ i p, (s.threads i).pc = .alterStore → (s.threads i).res.table = some p →
    p.id ≠ x) → c.commitsOf x = b.commitsOf x
  storing : ∀ i p, (s.threads i).pc = .alterStore → (s.threads i).res.table = some p →
    c.commitsOf p.id = b.commitsOf p.id ++ [⟨p.id, b.turn i, b.edits i⟩]

/-- The chronicle is the journal up to the ALTERs that have yet to store their tables. -/
structure Posted (s : State ι V) (c : Chronicle ι V) (b : Journal ι V) : Prop where
  acquired : c.acquired = b.acquired
  turn : c.turn = b.turn
  edits : c.edits = b.edits
  ahead : Ahead s c.toNotes b.toNotes

section Posting
variable [DecidableEq ι] [Inhabited V] {s s' : State ι V} {b : Journal ι V} {c : Chronicle ι V}

omit [Inhabited V] in
private theorem act_newlyAltered [Inhabited V] {i : ι} {a : Act V} {d d' : InternalData ι V}
    {t t' : Thread V} (h : act i a d t = some (d', t')) (ho : PcOk d t.res t.pc) :
    (a = .complete ∧ t.pc = .idle ∧ t.res.Holding false ∧ t' = ⟨t.res, .alterStore⟩ ∧
      newlyAltered t a = t.res.table) ∨ (t'.pc ≠ .alterStore ∧ newlyAltered t a = none) := by
  obtain ⟨r, pc⟩ := t
  obtain ⟨rfl, ht⟩ | ⟨rfl, hc⟩ := act_eq_some h
  · refine .inr ⟨fun hpc => ?_, rfl⟩
    cases pc with
    | innerUnlock n o =>
      cases ht
      cases o <;> cases hpc
    | _ =>
      simp only [tick] at ht
      (repeat' split at ht) <;> cases ht <;> cases hpc
  · cases called_of_call hc ho with
    | store hr =>
      have hindex : r.index ≠ npos := hr.index_ne
      have hdrop : r.drop = false := hr.2.1
      exact .inl ⟨rfl, rfl, hr, rfl, by simp [newlyAltered, hindex, hdrop]⟩
    | create hr =>
      have hindex : r.index = npos := hr.2.2.1
      exact .inr ⟨by simp, by simp [newlyAltered, hindex]⟩
    | remove hr =>
      have hdrop : r.drop = true := hr.2.1
      exact .inr ⟨by simp, by simp [newlyAltered, hdrop]⟩
    | _ => exact .inr ⟨by simp, rfl⟩

omit [Inhabited V] in
private theorem posted_move [Inhabited V] {i j : ι} (h : step s (.move i j) = some s')
    (hp : Posted s c b) : Posted s' (c.record s (.move i j)) (b.record s (.move i j)) := by
  obtain ⟨r, r', hi, hj, hij, _, _, hs⟩ := step_move h
  have hbefore {k : ι} (hpc : (s.threads k).pc = .alterStore) : k ≠ i ∧ k ≠ j := by
    constructor <;> rintro rfl
    · simp [hi] at hpc
    · simp [hj] at hpc
  have hafter {k : ι} (hpc : (s'.threads k).pc = .alterStore) : k ≠ i ∧ k ≠ j := by
    constructor <;> rintro rfl <;> simp [hs, hij] at hpc
  have hother {k : ι} (hk : k ≠ i ∧ k ≠ j) : s'.threads k = s.threads k := by
    simp [hs, hk.1, hk.2]
  refine ⟨hp.acquired, ?_, ?_, ⟨fun x hx => ?_, fun k p hpc htable => ?_⟩⟩
  · simp [Chronicle.record, Journal.record, hp.turn]
  · simp [Chronicle.record, Journal.record, hp.edits]
  · refine hp.ahead.stored x fun k p hpc htable => hx k p ?_ ?_
    · rw [hother (hbefore hpc), hpc]
    · rw [hother (hbefore hpc), htable]
  · have hk := hafter hpc
    rw [hother hk] at hpc htable
    simpa [Chronicle.record, Journal.record, Notes.commitsOf, hk.2] using
      hp.ahead.storing k p hpc htable

omit [DecidableEq ι] [Inhabited V] in
private theorem other_alter {i k : ι} {p q : TablePtr V} (ho : AllOwned s)
    (hd : Dense s b.history.contents) (hid : (b.history.contents.map TablePtr.id).Nodup)
    (hr : (s.threads i).res.Holding false) (hopen : (s.threads i).pc ≠ .alterUnlock)
    (hp : (s.threads i).res.table = some p) (hpc : (s.threads k).pc = .alterStore)
    (hq : (s.threads k).res.table = some q) (hki : k ≠ i) : p.id ≠ q.id := by
  obtain ⟨hi, p', hp', hpid⟩ := altered_entry ho hd hr hopen hp
  obtain ⟨hr', hopen'⟩ := holding_of_alterStore ho hpc
  obtain ⟨hk, q', hq', hqid⟩ := altered_entry ho hd hr' hopen' hq
  exact fun hpq => hki (owner_eq ho hid hk hi hq' hp' (by rw [hpid, hqid, hpq]))

omit [DecidableEq ι] [Inhabited V] in
private theorem ahead_complete {i : ι} {p : TablePtr V} {m n : Notes ι V} (ha : Ahead s m n)
    (hs : ∀ k ≠ i, s'.threads k = s.threads k) (hpc : (s.threads i).pc ≠ .alterStore)
    (hpc' : (s'.threads i).pc = .alterStore) (htable : (s'.threads i).res.table = some p)
    (hother : ∀ k q, (s.threads k).pc = .alterStore → (s.threads k).res.table = some q →
      k ≠ i → p.id ≠ q.id) (hturn : m.turn = n.turn) (hedits : m.edits = n.edits) :
    Ahead s' (m.commit i (some p)) n := by
  have hne {k : ι} (hk : (s.threads k).pc = .alterStore) : k ≠ i := by
    rintro rfl
    exact hpc hk
  constructor
  · intro x hx
    have hxp : p.id ≠ x := hx i p hpc' htable
    rw [Notes.commitsOf_commit_of_ne (by simpa using hxp)]
    refine ha.stored x fun k q hk hq => hx k q ?_ ?_
    · rw [hs k (hne hk), hk]
    · rw [hs k (hne hk), hq]
  · intro k q hk hq
    by_cases hki : k = i
    · subst hki
      obtain rfl : p = q := Option.some.inj (htable.symm.trans hq)
      rw [Notes.commitsOf_commit_self, hturn, hedits, ha.stored p.id fun l r hl hr =>
        (hother l r hl hr (hne hl)).symm]
    · rw [hs k hki] at hk hq
      rw [Notes.commitsOf_commit_of_ne (by simpa using hother k q hk hq hki)]
      exact ha.storing k q hk hq

omit [DecidableEq ι] [Inhabited V] in
private theorem ahead_store {i : ι} {p : TablePtr V} {m n : Notes ι V} (ha : Ahead s m n)
    (hs : ∀ k ≠ i, s'.threads k = s.threads k) (hpc : (s.threads i).pc = .alterStore)
    (hpc' : (s'.threads i).pc ≠ .alterStore) (htable : (s.threads i).res.table = some p)
    (hother : ∀ k q, (s.threads k).pc = .alterStore → (s.threads k).res.table = some q →
      k ≠ i → p.id ≠ q.id) : Ahead s' m (n.commit i (some p)) := by
  have hne {k : ι} (hk : (s'.threads k).pc = .alterStore) : k ≠ i := by
    rintro rfl
    exact hpc' hk
  constructor
  · intro x hx
    by_cases hxp : p.id = x
    · subst hxp
      rw [Notes.commitsOf_commit_self]
      exact ha.storing i p hpc htable
    · rw [Notes.commitsOf_commit_of_ne (by simpa using hxp)]
      refine ha.stored x fun k q hk hq => ?_
      by_cases hki : k = i
      · subst hki
        obtain rfl : p = q := Option.some.inj (htable.symm.trans hq)
        exact hxp
      · rw [← hs k hki] at hk hq
        exact hx k q hk hq
  · intro k q hk hq
    have hki : k ≠ i := hne hk
    rw [hs k hki] at hk hq
    rw [Notes.commitsOf_commit_of_ne (by simpa using hother k q hk hq hki), Notes.commit_turn,
      Notes.commit_edits]
    exact ha.storing k q hk hq

omit [DecidableEq ι] [Inhabited V] in
private theorem ahead_other {i : ι} {m n m' n' : Notes ι V} (ha : Ahead s m n)
    (hs : ∀ k ≠ i, s'.threads k = s.threads k) (hpc : (s.threads i).pc ≠ .alterStore)
    (hpc' : (s'.threads i).pc ≠ .alterStore) (hm : ∀ x, m'.commitsOf x = m.commitsOf x)
    (hn : ∀ x, n'.commitsOf x = n.commitsOf x)
    (hi : ∀ k ≠ i, n'.turn k = n.turn k ∧ n'.edits k = n.edits k) : Ahead s' m' n' := by
  constructor
  · intro x hx
    rw [hm, hn]
    refine ha.stored x fun k q hk hq => ?_
    have hki : k ≠ i := by
      rintro rfl
      exact hpc hk
    rw [← hs k hki] at hk hq
    exact hx k q hk hq
  · intro k q hk hq
    have hki : k ≠ i := by
      rintro rfl
      exact hpc' hk
    rw [hs k hki] at hk hq
    rw [hm, hn, (hi k hki).1, (hi k hki).2]
    exact ha.storing k q hk hq

omit [Inhabited V] in
private theorem posted_run [Inhabited V] {i : ι} {a : Act V} (h : step s (.run i a) = some s')
    (ho : AllOwned s) (hd : Dense s b.history.contents)
    (hid : (b.history.contents.map TablePtr.id).Nodup) (hp : Posted s c b) :
    Posted s' (c.record s (.run i a)) (b.record s (.run i a)) := by
  obtain ⟨d', t', ha, hs⟩ := step_run.mp h
  obtain ⟨hacq, hturn, hedits⟩ :=
    Notes.note_congr hp.acquired hp.turn hp.edits i (s.threads i) a
  have hself : s'.threads i = t' := by simp [hs]
  have hother (k : ι) (hk : k ≠ i) : s'.threads k = s.threads k := by simp [hs, hk]
  refine ⟨by simpa [Chronicle.record, Journal.record] using hacq,
    by simpa [Chronicle.record, Journal.record] using hturn,
    by simpa [Chronicle.record, Journal.record] using hedits, ?_⟩
  obtain ⟨rfl, hpc, hr, rfl, hnew⟩ | ⟨hpc', hnew⟩ := act_newlyAltered ha (ho i).ok
  · obtain ⟨p, htable⟩ : ∃ p, (s.threads i).res.table = some p :=
      Option.isSome_iff_exists.mp hr.2.2.2.2
    simp only [Chronicle.record, Journal.record, hnew, htable]
    exact ahead_complete hp.ahead hother (by simp [hpc]) (by rw [hself])
      (by rw [hself]; exact htable)
      (fun k q => other_alter ho hd hid hr (by simp [hpc]) htable) hp.turn hp.edits
  · rw [← hself] at hpc'
    by_cases hstore : a = .tick ∧ (s.threads i).pc = .alterStore
    · obtain ⟨rfl, hpc⟩ := hstore
      obtain ⟨hr, hopen⟩ := holding_of_alterStore ho hpc
      obtain ⟨p, htable⟩ : ∃ p, (s.threads i).res.table = some p :=
        Option.isSome_iff_exists.mp hr.2.2.2.2
      have hstored : storedBy (s.threads i) .tick = some p := by simp [storedBy, hpc, htable]
      simp only [Chronicle.record, Journal.record, hnew, hstored, Notes.note, hpc]
      exact ahead_store hp.ahead hother hpc hpc' htable
        fun k q => other_alter ho hd hid hr hopen htable
    · have hstored : storedBy (s.threads i) a = none := storedBy_eq_none hstore
      have hpc : (s.threads i).pc ≠ .alterStore := by
        intro hpc
        obtain ⟨rfl, _⟩ | ⟨hidle, _⟩ := act_eq_some ha
        · exact hstore ⟨rfl, hpc⟩
        · cases hpc.symm.trans hidle
      simp only [Chronicle.record, Journal.record, hnew, hstored, Notes.commit_none]
      exact ahead_other hp.ahead hother hpc hpc' (fun x => by simp) (fun x => by simp)
        fun k hk => b.note_others (s.threads i) a hk

end Posting

section Completed
variable [DecidableEq ι] [Inhabited V] [Fintype ι] {s : State ι V} {c : Chronicle ι V}
  {g : GapFree V}

private theorem posted_of_reach
    (hr : Reach (recorded step Chronicle.record) (fun x l => NoCreate x.1 l)
      (g.start, ⟨.blank, ⟨[], []⟩⟩) (s, c)) :
    ∃ b : Journal ι V, Reach (recorded step Journal.record) (fun x l => NoCreate x.1 l)
        (g.start, ⟨.blank, ⟨g.tables, [], []⟩⟩) (s, b) ∧
      Posted s c b ∧ Pursued s c.completed b.history := by
  obtain ⟨b, hb⟩ : ∃ b : Journal ι V, Reach
      (recorded step fun s l y => (Chronicle.record s l y.1, Journal.record s l y.2))
      (fun x l => NoCreate x.1 l) (g.start, ⟨.blank, ⟨[], []⟩⟩, ⟨.blank, ⟨g.tables, [], []⟩⟩)
      (s, c, b) := hr.besides _
  have journal {s : State ι V} {y : Chronicle ι V × Journal ι V}
      (h : Reach (recorded step fun s l y => (Chronicle.record s l y.1, Journal.record s l y.2))
        (fun x l => NoCreate x.1 l)
        (g.start, ⟨.blank, ⟨[], []⟩⟩, ⟨.blank, ⟨g.tables, [], []⟩⟩) (s, y)) :
      Reach (recorded step Journal.record) (fun x l => NoCreate x.1 l)
        (g.start, ⟨.blank, ⟨g.tables, [], []⟩⟩) (s, y.2) := h.project Prod.snd fun _ _ _ => rfl
  refine ⟨b, journal hb, ?_, ?_⟩
  · refine hb.invariant_with (I := fun x => Posted x.1 x.2.1 x.2.2)
      (J := fun x => AllOwned x.1 ∧ Dense x.1 x.2.2.history.contents ∧
        Traced g.tables x.1 x.2.2.history) (fun x hx => ?_) ?_ ?_
    · obtain ⟨ho, _, hd, ht⟩ := traced_of_journal (journal hx)
      exact ⟨ho, hd, ht⟩
    · exact ⟨rfl, rfl, rfl, fun _ _ => rfl, fun i p hpc => by cases hpc⟩
    · rintro ⟨s, c, b⟩ l ⟨s', c', b'⟩ ⟨ho, hd, ht⟩ _ hp _ he
      obtain ⟨hs, hrec⟩ := recorded_eq_some.mp he
      cases hrec
      cases l with
      | run i a => exact posted_run hs ho hd ht.nodup_contents hp
      | move i j => exact posted_move hs hp
  · exact pursued_of_reach (allOwned_start g) (pursued_start g)
      (hb.project (fun y => (y.1.completed, y.2.history)) fun s l y => by cases l <;> rfl)

section Explaining
variable {b : Journal ι V}

omit [DecidableEq ι] [Inhabited V] [Fintype ι] in
private theorem commitsOf_sorted (hx : Explained g.tables s b) (ho : AllOwned s)
    (hp : Posted s c b) (x : Nat) : ((c.commitsOf x).map Commit.turn).Pairwise (· < ·) := by
  by_cases hstoring : ∃ i p, (s.threads i).pc = .alterStore ∧
      (s.threads i).res.table = some p ∧ p.id = x
  · obtain ⟨i, p, hpc, htable, rfl⟩ := hstoring
    obtain ⟨hr, hopen⟩ := holding_of_alterStore ho hpc
    obtain ⟨_, hknown⟩ := (hx.author i).editing hr hopen
    rw [hp.ahead.storing i p hpc htable, List.map_append, List.pairwise_append]
    refine ⟨hx.journaled.ordered p.id, by simp, fun m hm n hn => ?_⟩
    obtain ⟨e, he, rfl⟩ := List.mem_map.mp hm
    obtain rfl : n = b.turn i := by simpa using hn
    exact (hknown p htable).1 e he
  · rw [hp.ahead.stored x fun i p hpc htable hid => hstoring ⟨i, p, hpc, htable, hid⟩]
    exact hx.journaled.ordered x

omit [DecidableEq ι] [Inhabited V] [Fintype ι] in
private theorem value_of_editing (hx : Explained g.tables s b) (ho : AllOwned s)
    (hd : Dense s b.history.contents) (hid : (b.history.contents.map TablePtr.id).Nodup)
    (hp : Posted s c b) {i : ι} (hpc : (s.threads i).pc = .idle)
    (hr : (s.threads i).res.Holding false) {p q : TablePtr V}
    (hq : (s.threads i).res.table = some q) (hmem : p ∈ g.tables) (hpq : p.id = q.id) :
    q.value = c.edits i (c.committed p.id p.value) := by
  have hopen : (s.threads i).pc ≠ .alterUnlock := by simp [hpc]
  obtain ⟨_, hedit⟩ := ((hx.author i).editing hr hopen).2 q hq
  have hsame : c.commitsOf q.id = b.commitsOf q.id :=
    hp.ahead.stored q.id fun k t hk ht => by
      have hki : k ≠ i := by
        rintro rfl
        simp [hpc] at hk
      exact (other_alter ho hd hid hr hopen hq hk ht hki).symm
  have hvalue := hedit p hmem hpq
  simp only [Notes.committed, ← hsame] at hvalue
  rw [hpq, hp.edits]
  exact hvalue

omit [DecidableEq ι] [Inhabited V] in
private theorem stored_of_not_dropped (hx : Explained g.tables s b) (ho : AllOwned s)
    (hd : Dense s b.history.contents) (ht : Traced g.tables s b.history) (hp : Posted s c b)
    (hpursued : Pursued s c.completed b.history)
    (hq : ∀ i, (s.threads i).pc.completing = false) {p : TablePtr V} (hmem : p ∈ g.tables)
    (hdrop : p.id ∉ c.completed.dropped.map TablePtr.id) :
    ∃ k < s.data.tableCount, s.data.tables k = some ⟨p.id, c.committed p.id p.value⟩ := by
  have hstored (x : Nat) : c.commitsOf x = b.commitsOf x :=
    hp.ahead.stored x fun i q hpc => by
      have hnot := hq i
      rw [hpc] at hnot
      cases hnot
  obtain ⟨hslots, hcount⟩ := hd.settled ho hq
  have hthere : p.id ∈ (b.history.contents ++ b.history.dropped).map TablePtr.id := by
    apply ht.perm.symm.subset
    simpa using .inl ⟨p, hmem, rfl⟩
  have hkept : p.id ∉ b.history.dropped.map TablePtr.id := by
    rw [← List.count_eq_zero] at hdrop ⊢
    exact ((hpursued.settled hq p.id).2.symm).trans hdrop
  rw [List.map_append, List.mem_append] at hthere
  obtain ⟨q, hqc, hid⟩ := List.mem_map.mp (hthere.resolve_right hkept)
  obtain ⟨k, hk⟩ := List.mem_iff_getElem?.mp hqc
  refine ⟨k, ?_, ?_⟩
  · rw [hcount]
    exact (List.getElem?_eq_some_iff.mp hk).1
  · have hvalue := hx.journaled.values q hqc p hmem hid.symm
    simp only [Notes.committed, hstored] at hvalue ⊢
    rw [hslots, hk, ← hid, ← hvalue]

end Explaining

/-- No completed ALTER is lost. Its commits to a table are in the order in which the mutexes were
acquired; an open ALTER edits the value the commits before it have led to; and while no handle is
in the middle of `complete()`, a table that is not dropped is stored with that value. -/
theorem alters_all_kept
    (hr : Reach (recorded step Chronicle.record) (fun x l => NoCreate x.1 l)
      (g.start, ⟨.blank, ⟨[], []⟩⟩) (s, c)) :
    (∀ x, ((c.commitsOf x).map Commit.turn).Pairwise (· < ·)) ∧
      (∀ i, (s.threads i).pc = .idle → (s.threads i).res.Holding false →
        ∀ q, (s.threads i).res.table = some q → ∀ p ∈ g.tables, p.id = q.id →
          q.value = c.edits i (c.committed p.id p.value)) ∧
      ((∀ i, (s.threads i).pc.completing = false) → ∀ p ∈ g.tables,
        p.id ∉ c.completed.dropped.map TablePtr.id →
          ∃ k < s.data.tableCount,
            s.data.tables k = some ⟨p.id, c.committed p.id p.value⟩) := by
  obtain ⟨b, hb, hposted, hpursued⟩ := posted_of_reach hr
  have hx := explained_of_reach hb
  obtain ⟨ho, _, hd, ht⟩ := traced_of_journal hb
  refine ⟨fun x => ?_, fun i hpc hh q hq p hp hid => ?_, fun hq p hp hdrop => ?_⟩
  · exact commitsOf_sorted hx ho hposted x
  · exact value_of_editing hx ho hd ht.nodup_contents hposted hpc hh hq hp hid
  · exact stored_of_not_dropped hx ho hd ht hposted hpursued hq hp hdrop

end Completed

/-- An ALTER of the second table, a DROP of the first one that moves it, and an ALTER of it in its
new place. -/
def alterAcrossMove (i j : ι) : List (Label ι Nat) :=
  calls i (.alterTable 1) 2 ++ calls j (.dropTable 0) 2 ++ calls j .complete 2 ++
    calls i (.edit (· + 1)) 0 ++ calls i .complete 2 ++ ticks j 11 ++
    calls i (.alterTable 0) 2 ++ calls i (.edit (· * 2)) 0 ++ calls i .complete 2

theorem alters_all_kept_move : ∃ (s : State (Fin 2) Nat) (c : Chronicle (Fin 2) Nat),
    execute (recorded step Chronicle.record) (fun x l => NoCreate x.1 l) (alterAcrossMove 0 1)
      (pair.start, ⟨.blank, ⟨[], []⟩⟩) = some (s, c) ∧
      (c.commitsOf 1).length = 2 ∧ c.committed 1 11 = 24 ∧
      ∃ k < s.data.tableCount, s.data.tables k = some ⟨1, 24⟩ := by
  obtain ⟨⟨s, c⟩, he, hs⟩ := Option.map_eq_some_iff.mp
    (show (execute (recorded step Chronicle.record) (fun x l => NoCreate x.1 l)
      (alterAcrossMove (0 : Fin 2) 1) (pair.start, ⟨.blank, ⟨[], []⟩⟩)).map (fun x =>
        (decide (∀ i, (x.1.threads i).pc.completing = false),
          x.2.completed.dropped.map TablePtr.id, (x.2.commitsOf 1).length, x.2.committed 1 11)) =
        some (true, [0], 2, 24) by decide +kernel)
  obtain ⟨hq, hd, hn, hv⟩ : decide (∀ i, (s.threads i).pc.completing = false) = true ∧
      c.completed.dropped.map TablePtr.id = [0] ∧ (c.commitsOf 1).length = 2 ∧
      c.committed 1 11 = 24 := by simpa using hs
  obtain ⟨k, hk, hs⟩ := (alters_all_kept (reach_of_execute _ he)).2.2
    (of_decide_eq_true hq) ⟨1, 11⟩ (by decide) (by rw [hd]; decide)
  exact ⟨s, c, he, hn, hv, k, hk, hv ▸ hs⟩

end PStress.Metadata
