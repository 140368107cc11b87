import Mathlib.Data.List.Basic
import Mathlib.Data.List.Perm.Subperm
import Mathlib.Tactic.Common
import PStress.Selection.Running
import PStress.Text.Words

/-! Reading strings of blank-separated `keyword = value` pairs. Values may be quoted, and a
backslash takes the next character as it is. -/
namespace PStress.Connection
open Selection Text

abbrev Pair := List Char × List Char

def blank (c : Char) : Bool := c == ' ' || ('\t' ≤ c && c ≤ '\r')

def escape : Char := '\\'

def quote : Char := Char.ofNat 39

def keywordChar (c : Char) : Bool := !(c == '=' || blank c)

/-- A value up to its closing quote, and what follows it. -/
def quotedValue : List Char → Option Pair
  | [] => none
  | c :: s =>
    if c = quote then some ([], s)
    else if c = escape then
      match s with
      | [] => none
      | d :: s => (quotedValue s).map fun x => (d :: x.1, x.2)
    else (quotedValue s).map fun x => (c :: x.1, x.2)

/-- A value up to the next blank, and what follows it. -/
def bareValue : List Char → Pair
  | [] => ([], [])
  | c :: s =>
    if c = escape then
      match s with
      | [] => ([], [])
      | d :: s => (d :: (bareValue s).1, (bareValue s).2)
    else if blank c then ([], c :: s)
    else (c :: (bareValue s).1, (bareValue s).2)

/-- A value that begins with its first character, if there is one. -/
def value : List Char → Option Pair
  | [] => none
  | c :: s => if c = quote then quotedValue s else some (bareValue (c :: s))

/-- What follows the blanks and the equals sign, if there is one. -/
def afterEquals (s : List Char) : Option (List Char) :=
  match s.dropWhile blank with
  | '=' :: s => some (s.dropWhile blank)
  | _ => none

def pair (s : List Char) : Option (Pair × List Char) := do
  let s' ← afterEquals (s.dropWhile keywordChar)
  let x ← value s'
  return ((s.takeWhile keywordChar, x.1), x.2)

/-- At most so many pairs, one after another, to the end. -/
def pairs : Nat → List Char → Option (List Pair)
  | 0, s => if s.dropWhile blank = [] then some [] else none
  | n + 1, s =>
    if s.dropWhile blank = [] then some []
    else do
      let x ← pair (s.dropWhile blank)
      return x.1 :: (← pairs n x.2)

/-- A string has no more pairs than characters. -/
def conninfo (s : List Char) : Option (List Pair) := pairs s.length s

/-- The value of a keyword: the last one counts. -/
def setting (ps : List Pair) (keyword : List Char) : Option (List Char) :=
  (ps.reverse.find? fun p => p.1 = keyword).map Prod.snd

/-- A pair without quotes or superfluous blanks. -/
def renderPair (p : Pair) : List Char := p.1 ++ '=' :: p.2

def render : List Pair → List Char
  | [] => []
  | [p] => renderPair p
  | p :: q :: ps => renderPair p ++ ' ' :: render (q :: ps)

def Plain (v : List Char) : Prop :=
  v ≠ [] ∧ v.head? ≠ some quote ∧ ∀ c ∈ v, c ≠ escape ∧ blank c = false

instance (v : List Char) : Decidable (Plain v) :=
  inferInstanceAs
    (Decidable (v ≠ [] ∧ v.head? ≠ some quote ∧ ∀ c ∈ v, c ≠ escape ∧ blank c = false))

section Lengths

/-- The characters a pair takes, and one more. -/
def cost (p : Pair) : Nat := p.1.length + p.2.length + 2

/-- The costs of the pairs that the rest of a string has room for. -/
def room (s : List Char) : Nat :=
  if s.dropWhile blank = [] then 0 else (s.dropWhile blank).length + 1

private theorem room_le (s : List Char) : room s ≤ s.length + 1 := by
  have := length_dropWhile_le blank s
  simp only [room]
  split <;> omega

private theorem room_le_of_blank {s : List Char} (h : ∀ c r, s = c :: r → blank c) :
    room s ≤ s.length := by
  cases s with
  | nil => simp [room]
  | cons c s =>
    have := room_le s
    rw [room, List.dropWhile_cons_of_pos (h c s rfl)]
    exact this

private theorem bareValue_length (s : List Char) :
    (bareValue s).1.length + (bareValue s).2.length ≤ s.length ∧
      ((bareValue s).1.length + (bareValue s).2.length = s.length →
        (bareValue s).1 ++ (bareValue s).2 = s ∧
          ∀ c ∈ (bareValue s).1, c ≠ escape ∧ blank c = false) ∧
      ∀ c r, (bareValue s).2 = c :: r → blank c := by
  fun_induction bareValue s with
  | case1 => simp
  | case2 => simp
  | case3 d s ih =>
    refine ⟨?_, fun h => ?_, ih.2.2⟩
    · simp only [List.length_cons]
      omega
    · simp only [List.length_cons] at h
      omega
  | case4 c s hc hb => simpa using hb
  | case5 c s hc hb ih =>
    simp only [Bool.not_eq_true] at hb
    refine ⟨?_, fun h => ?_, ih.2.2⟩
    · simp only [List.length_cons]
      omega
    · simp only [List.length_cons] at h
      obtain ⟨happ, hall⟩ := ih.2.1 (by omega)
      exact ⟨congrArg (c :: ·) happ, List.forall_mem_cons.mpr ⟨⟨hc, hb⟩, hall⟩⟩

private theorem quotedValue_length {s : List Char} {x : Pair} (h : quotedValue s = some x) :
    x.1.length + x.2.length + 1 ≤ s.length := by
  fun_induction quotedValue s generalizing x with
  | case1 => cases h
  | case2 s =>
    cases h
    simp
  | case3 => cases h
  | case4 d s _ ih =>
    obtain ⟨y, hy, rfl⟩ := Option.map_eq_some_iff.mp h
    have := ih hy
    simp only [List.length_cons]
    omega
  | case5 c s _ _ ih =>
    obtain ⟨y, hy, rfl⟩ := Option.map_eq_some_iff.mp h
    have := ih hy
    simp only [List.length_cons]
    omega

private theorem value_room {s : List Char} {x : Pair} (hs : ∀ c r, s = c :: r → blank c = false)
    (h : value s = some x) :
    x.1.length + room x.2 ≤ s.length ∧ (x.1.length + room x.2 = s.length → Plain x.1) := by
  cases s with
  | nil => cases h
  | cons c s =>
    simp only [value] at h
    split at h
    · have := quotedValue_length h
      have := room_le x.2
      rw [List.length_cons]
      omega
    · rename_i hq
      cases h
      obtain ⟨hlen, hplain, hrest⟩ := bareValue_length (c :: s)
      have := room_le_of_blank hrest
      refine ⟨by omega, fun he => ?_⟩
      obtain ⟨happ, hall⟩ := hplain (by omega)
      rcases List.append_eq_cons_iff.mp happ with ⟨_, hr⟩ | ⟨v, hv, _⟩
      · have := hrest c s hr
        rw [hs c s rfl] at this
        cases this
      · refine ⟨?_, ?_, hall⟩
        · rw [hv]
          exact List.cons_ne_nil c v
        · rw [hv, List.head?_cons]
          exact fun hq' => hq (Option.some.inj hq')

private theorem afterEquals_length {s t : List Char} (h : afterEquals s = some t) :
    t.length + 1 ≤ s.length ∧ ∀ c r, t = c :: r → blank c = false := by
  simp only [afterEquals] at h
  split at h
  · rename_i u hu
    cases h
    have h₁ := length_dropWhile_le blank s
    have h₂ := length_dropWhile_le blank u
    rw [hu, List.length_cons] at h₁
    exact ⟨by omega, fun c r => head_dropWhile⟩
  · cases h

private theorem pair_room {s : List Char} {x : Pair × List Char} (h : pair s = some x) :
    cost x.1 + room x.2 ≤ s.length + 1 ∧ (cost x.1 + room x.2 = s.length + 1 → Plain x.1.2) := by
  obtain ⟨t, ht, h⟩ := Option.bind_eq_some_iff.mp h
  obtain ⟨y, hy, h⟩ := Option.bind_eq_some_iff.mp h
  cases h
  obtain ⟨hlen, hhead⟩ := afterEquals_length ht
  obtain ⟨hroom, hplain⟩ := value_room hhead hy
  have hs := congrArg List.length (List.takeWhile_append_dropWhile (p := keywordChar) (l := s))
  rw [List.length_append] at hs
  simp only [cost]
  exact ⟨by omega, fun he => hplain (by omega)⟩

/-- The pairs of a string cost no more than it has room for, and less unless all values are
plain. -/
private theorem pairs_room {n : Nat} {s : List Char} {ps : List Pair} (h : pairs n s = some ps) :
    weight cost ps ≤ room s ∧ (weight cost ps = room s → ∀ p ∈ ps, Plain p.2) := by
  induction n generalizing s ps with
  | zero =>
    simp only [pairs] at h
    split at h <;> cases h
    simp
  | succ n ih =>
    simp only [pairs] at h
    split at h
    · cases h
      simp
    · rename_i hs
      obtain ⟨x, hx, h⟩ := Option.bind_eq_some_iff.mp h
      obtain ⟨qs, hqs, h⟩ := Option.bind_eq_some_iff.mp h
      cases h
      obtain ⟨hcost, hplain⟩ := pair_room hx
      obtain ⟨hrest, hrestplain⟩ := ih hqs
      rw [weight_cons, room, if_neg hs]
      refine ⟨by omega, fun he => List.forall_mem_cons.mpr ⟨?_, ?_⟩⟩
      · exact hplain (by omega)
      · exact hrestplain (by omega)

end Lengths

section Rendering

def Keyword (k : List Char) : Prop := k ≠ [] ∧ ∀ c ∈ k, keywordChar c

theorem keyword_of_all {k : List Char} (h : k ≠ [] ∧ k.all keywordChar) : Keyword k :=
  ⟨h.1, List.all_eq_true.mp h.2⟩

private theorem weight_cost_render {ps : List Pair} (h : ps ≠ []) :
    weight cost ps = (render ps).length + 1 := by
  induction ps with
  | nil => exact absurd rfl h
  | cons p ps ih =>
    cases ps with
    | nil =>
      simp [render, renderPair, cost]
      omega
    | cons q ps =>
      rw [weight_cons, ih (List.cons_ne_nil q ps), render]
      simp [renderPair, cost]
      omega

private theorem head_renderPair {p : Pair} (hk : Keyword p.1) (rest : List Char) :
    ∃ c r, renderPair p ++ rest = c :: r ∧ blank c = false := by
  obtain ⟨hne, hk⟩ := hk
  obtain ⟨c, k, hc⟩ := List.exists_cons_of_ne_nil hne
  have hcc : keywordChar c := hk c (by rw [hc]; exact List.mem_cons_self)
  refine ⟨c, k ++ '=' :: p.2 ++ rest, by simp [renderPair, hc], ?_⟩
  simp only [keywordChar, Bool.not_eq_true', Bool.or_eq_false_iff] at hcc
  exact hcc.2

private theorem dropWhile_renderPair {p : Pair} (hk : Keyword p.1) (rest : List Char) :
    (renderPair p ++ rest).dropWhile blank = renderPair p ++ rest := by
  obtain ⟨c, r, hc, hb⟩ := head_renderPair hk rest
  rw [hc, List.dropWhile_cons_of_neg (by simp [hb])]

private theorem bareValue_of_blank {c : Char} (hb : blank c) (s : List Char) :
    bareValue (c :: s) = ([], c :: s) := by
  have he : c ≠ escape := by
    rintro rfl
    revert hb
    decide
  rw [bareValue.eq_def]
  simp [he, hb]

private theorem bareValue_cons {c : Char} (he : c ≠ escape) (hb : blank c = false) (s : List Char) :
    bareValue (c :: s) = (c :: (bareValue s).1, (bareValue s).2) := by
  rw [bareValue.eq_def]
  simp [he, hb]

private theorem bareValue_word {v rest : List Char} (hv : ∀ c ∈ v, c ≠ escape ∧ blank c = false)
    (hr : ∀ c r, rest = c :: r → blank c) : bareValue (v ++ rest) = (v, rest) := by
  induction v with
  | nil =>
    cases rest with
    | nil => rfl
    | cons c r => exact bareValue_of_blank (hr c r rfl) r
  | cons c v ih =>
    obtain ⟨⟨hc, hb⟩, hv⟩ := List.forall_mem_cons.mp hv
    rw [List.cons_append, bareValue_cons hc hb, ih hv]

theorem render_concat {ps : List Pair} (h : ps ≠ []) (q : Pair) :
    render (ps ++ [q]) = render ps ++ ' ' :: renderPair q := by
  induction ps with
  | nil => exact absurd rfl h
  | cons p ps ih =>
    cases ps with
    | nil => rfl
    | cons p' ps =>
      have := ih (List.cons_ne_nil p' ps)
      simp only [List.cons_append, render] at this ⊢
      rw [this, List.append_assoc, List.cons_append]

private theorem pair_render {p : Pair} {t : List Char} (hk : Keyword p.1) (hv : Plain p.2)
    (hr : ∀ c r, t = c :: r → blank c) : pair (renderPair p ++ t) = some (p, t) := by
  obtain ⟨hne, hq, hall⟩ := hv
  obtain ⟨c, v, hc⟩ := List.exists_cons_of_ne_nil hne
  have happ : renderPair p ++ t = p.1 ++ '=' :: (p.2 ++ t) := by simp [renderPair]
  have hend : ∀ c r, '=' :: (p.2 ++ t) = c :: r → keywordChar c = false := by
    intro c r h
    cases h
    decide
  obtain ⟨htake, hdrop⟩ := takeWhile_word hk.2 hend
  have hb : blank c = false := (hall c (by rw [hc]; exact List.mem_cons_self)).2
  have hequals : afterEquals ('=' :: (p.2 ++ t)) = some (p.2 ++ t) := by
    have he : blank '=' = false := by decide
    simp [afterEquals, he, hc, hb]
  have hvalue : value (p.2 ++ t) = some (p.2, t) := by
    have hcq : c ≠ quote := fun h => hq (by rw [hc, h, List.head?_cons])
    have hbare := bareValue_word hall hr
    rw [hc] at hbare ⊢
    rw [List.cons_append, value, if_neg hcq, ← List.cons_append, hbare]
  simp [pair, happ, htake, hdrop, hequals, hvalue]

private theorem pairs_space (n : Nat) (s : List Char) : pairs n (' ' :: s) = pairs n s := by
  have hb : blank ' ' := by decide
  cases n <;> simp [pairs, hb]

private theorem pairs_render {ps : List Pair} (hk : ∀ p ∈ ps, Keyword p.1)
    (hv : ∀ p ∈ ps, Plain p.2) {n : Nat} (hn : ps.length ≤ n) : pairs n (render ps) = some ps := by
  induction ps generalizing n with
  | nil => cases n <;> rfl
  | cons p ps ih =>
    obtain ⟨hkp, hk⟩ := List.forall_mem_cons.mp hk
    obtain ⟨hvp, hv⟩ := List.forall_mem_cons.mp hv
    obtain ⟨m, rfl⟩ := Nat.exists_eq_add_of_le' (Nat.le_trans (Nat.le_add_left 1 ps.length) hn)
    have hm : ps.length ≤ m := by simpa using hn
    have hne (rest : List Char) : renderPair p ++ rest ≠ [] := by
      obtain ⟨c, r, hc, _⟩ := head_renderPair hkp rest
      rw [hc]
      exact List.cons_ne_nil c r
    cases ps with
    | nil =>
      have hp := pair_render (t := []) hkp hvp fun c r h => by cases h
      have hd := dropWhile_renderPair hkp []
      have h0 : pairs m [] = some [] := by cases m <;> rfl
      rw [List.append_nil] at hp hd
      have hne := hne []
      rw [List.append_nil] at hne
      simp [render, pairs, hd, hne, hp, h0]
    | cons q ps =>
      have hp := pair_render (t := ' ' :: render (q :: ps)) hkp hvp fun c r h => by
        cases h
        decide
      have hq : pairs m (' ' :: render (q :: ps)) = some (q :: ps) := by
        rw [pairs_space]
        exact ih hk hv hm
      simp [render, pairs, dropWhile_renderPair hkp, hne, hp, hq]

private theorem length_le_render (ps : List Pair) : ps.length ≤ (render ps).length := by
  induction ps with
  | nil => exact Nat.le_refl 0
  | cons p ps ih =>
    cases ps with
    | nil =>
      simp [render, renderPair]
      omega
    | cons q ps =>
      simp only [render, renderPair, List.length_append, List.length_cons] at ih ⊢
      omega

private theorem conninfo_render {ps : List Pair} (hk : ∀ p ∈ ps, Keyword p.1)
    (hv : ∀ p ∈ ps, Plain p.2) :
    conninfo (render ps) = some ps := pairs_render hk hv (length_le_render ps)

private theorem mem_of_setting {ps : List Pair} {k v : List Char} (h : setting ps k = some v) :
    (k, v) ∈ ps := by
  obtain ⟨p, hp, rfl⟩ := Option.map_eq_some_iff.mp h
  have hk : p.1 = k := by simpa using List.find?_some hp
  rw [← hk]
  exact List.mem_reverse.mp (List.mem_of_find?_eq_some hp)

private theorem setting_eq_some {ps : List Pair} (hd : (ps.map Prod.fst).Nodup) {p : Pair}
    (hp : p ∈ ps) :
    setting ps p.1 = some p.2 := by
  have hf : (ps.reverse.find? fun q => q.1 = p.1).isSome := by
    rw [List.find?_isSome]
    exact ⟨p, List.mem_reverse.mpr hp, by simp⟩
  obtain ⟨q, hq⟩ := Option.isSome_iff_exists.mp hf
  have hk : q.1 = p.1 := by simpa using List.find?_some hq
  have hm := List.mem_reverse.mp (List.mem_of_find?_eq_some hq)
  rw [setting, hq, List.inj_on_of_nodup_map hd hm hp hk]
  rfl

theorem setting_eq_some_iff {ps : List Pair} (hd : (ps.map Prod.fst).Nodup) {k v : List Char} :
    setting ps k = some v ↔ (k, v) ∈ ps := ⟨mem_of_setting, setting_eq_some hd⟩

/-- Reading fails, or gives some keyword another value, unless all values are plain: what the
rendered pairs take leaves no room for anything else. -/
private theorem plain_of_read {ps qs : List Pair} (hd : (ps.map Prod.fst).Nodup)
    (hr : conninfo (render ps) = some qs) (hs : ∀ p ∈ ps, setting qs p.1 = some p.2) :
    ∀ p ∈ ps, Plain p.2 := by
  by_cases hne : ps = []
  · subst hne
    exact fun p hp => absurd hp List.not_mem_nil
  have hsub : ps ⊆ qs := fun p hp => mem_of_setting (hs p hp)
  obtain ⟨l, hperm, hlist⟩ := List.subperm_of_subset (List.Nodup.of_map _ hd) hsub
  have hle : weight cost ps ≤ weight cost qs := by
    rw [← weight_perm cost hperm]
    exact weight_sublist cost hlist
  obtain ⟨hcost, hplain⟩ := pairs_room hr
  have hroom := room_le (render ps)
  rw [weight_cost_render hne] at hle
  exact fun p hp => hplain (by omega) p (hsub hp)

/-- Exactly the plain values can be left without quotes. -/
theorem read_back_iff {ps : List Pair} (hk : ∀ p ∈ ps, Keyword p.1)
    (hd : (ps.map Prod.fst).Nodup) :
    (∃ qs, conninfo (render ps) = some qs ∧ setting qs = setting ps) ↔ ∀ p ∈ ps, Plain p.2 := by
  constructor
  · rintro ⟨qs, hr, hs⟩
    refine plain_of_read hd hr fun p hp => ?_
    rw [hs]
    exact setting_eq_some hd hp
  · intro hv
    exact ⟨ps, conninfo_render hk hv, rfl⟩

end Rendering
end PStress.Connection
