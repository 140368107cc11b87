import PStress.Actions.Regularity

/-! Random tables and initial data, as a worker makes them before any workload runs. -/
namespace PStress.Actions
open Interaction Interleaving Metadata Program Text
variable {ι : Type} [DecidableEq ι] {i : ι} {steps : Nat} {D : Int → Int → Prop}

namespace Worker

end Worker

section Tables
variable {config : DdlConfig} {w w' : World ι} {ts : List (TablePtr Table)}

def Stores (ts : List (TablePtr Table)) (d : InternalData ι Table) : Prop :=
  (∀ k, d.tables k = ts[k]?) ∧ d.tableCount = ts.length

omit [DecidableEq ι] in
theorem Stores.append {d d' : InternalData ι Table} {p : TablePtr Table} (h : Stores ts d)
    (ht : d'.tables = Function.update d.tables d.tableCount (some p))
    (hc : d'.tableCount = d.tableCount + 1) : Stores (ts ++ [p]) d' := by
  obtain ⟨hslots, hcount⟩ := h
  refine ⟨fun k => ?_, by rw [hc, hcount, List.length_append, List.length_singleton]⟩
  rw [ht, hcount]
  by_cases hk : k = ts.length
  · simp [hk]
  · rw [Function.update_of_ne hk, hslots]
    by_cases hlt : k < ts.length
    · rw [List.getElem?_append_left hlt]
    · rw [List.getElem?_eq_none (by omega), List.getElem?_eq_none (by simp; omega)]

omit [DecidableEq ι] in
/-- A CREATE makes regular tables. -/
theorem CreateTable.Chooses.regular {number count : Int} {columns : List Column}
    (h : CreateTable.Chooses config w number count columns)
    (hwide : 2 ≤ config.max_column_count) (hint : config.max_column_count < 2147483648) :
    Regular ⟨s!"foo{number}", columns⟩ := by
  obtain ⟨_, _, _, hnumber, hcount, hcolumns⟩ := h
  obtain ⟨_, rfl, hlen, hshaped, hplain⟩ := (draws_new _ []).of_run hcolumns
  obtain ⟨htwo, _⟩ := hcount.toSize_between hint hwide
  have hproper : Table.Proper ⟨s!"foo{number}", columns⟩ :=
    ⟨⟨hlen ▸ htwo, hshaped⟩, word_table hnumber, hplain⟩
  exact hproper.regular

end Tables

section Creation
variable {config : DdlConfig} {w w' : World ι} {ts : List (TablePtr Table)} {log : List String}

/-- What CREATEs have made of a container with the tables `ts`: the tables they have stored behind
them, and a statement for each. -/
structure Made (ts created : List (TablePtr Table)) (log : List String)
    (x : World ι × List String) : Prop where
  regular : ∀ p ∈ created, Regular p.value
  stores : Stores (ts ++ created) x.1.data
  sent : x.2 = log ++ created.map fun p => CreateTable.statement p.value

omit [DecidableEq ι] in
theorem Made.concat {created : List (TablePtr Table)} {x : World ι × List String} {w' : World ι}
    {sent : List String} (h : Made ts created log x) (hwide : 2 ≤ config.max_column_count)
    (hint : config.max_column_count < 2147483648)
    (hexecuted : CreateTable.Executed config x.1 (w', sent)) :
    ∃ p, Made ts (created ++ [p]) log (w', x.2 ++ sent) := by
  obtain ⟨number, count, columns, p, hchooses, hp, hsent, htables, hcount⟩ := hexecuted
  obtain rfl : sent = [CreateTable.statement p.value] := hsent
  refine ⟨p, ⟨fun q hq => ?_, ?_, ?_⟩⟩
  · rcases List.mem_append.mp hq with hq | hq
    · exact h.regular q hq
    · rw [List.mem_singleton.mp hq, hp]
      exact hchooses.regular hwide hint
  · rw [← List.append_assoc]
    exact h.stores.append htables hcount
  · simp [h.sent]

end Creation

section Loading
variable {w : World ι} {ts : List (TablePtr Table)} {log : List String}

/-- Statements that fill a table: each an INSERT of a hundred rows that fits it. -/
def Fills (p : TablePtr Table) (stmts : List String) : Prop :=
  ∀ sql ∈ stmts, InsertFits 100 p.value sql

def Loads (ts : List (TablePtr Table)) (stmts : List String) : Prop :=
  ∃ parts, List.Forall₂ (fun p part => part.length = 10 ∧ Fills p part) ts parts ∧
    stmts = parts.flatten

/-- Loading was broken off at one of the ten INSERTs into a table. -/
def LoadsUntil (ts : List (TablePtr Table)) (stmts : List String) : Prop :=
  ∃ done p rest before part, ts = done ++ p :: rest ∧ Loads done before ∧ Fills p part ∧
    1 ≤ part.length ∧ part.length ≤ 10 ∧ stmts = before ++ part

theorem Loads.cons {p : TablePtr Table} {part stmts : List String} (hlen : part.length = 10)
    (hp : Fills p part) (h : Loads ts stmts) : Loads (p :: ts) (part ++ stmts) := by
  obtain ⟨parts, hparts, rfl⟩ := h
  exact ⟨part :: parts, .cons ⟨hlen, hp⟩ hparts, List.flatten_cons.symm⟩

theorem LoadsUntil.cons {p : TablePtr Table} {part stmts : List String} (hlen : part.length = 10)
    (hp : Fills p part) (h : LoadsUntil ts stmts) : LoadsUntil (p :: ts) (part ++ stmts) := by
  obtain ⟨done, q, rest, before, last, rfl, hbefore, hlast, hl, hu, rfl⟩ := h
  exact ⟨p :: done, q, rest, part ++ before, last, rfl, hbefore.cons hlen hp, hlast, hl, hu,
    (List.append_assoc ..).symm⟩

end Loading

section Outcomes
variable {α β : Type} {p : Execution α} {w : World ι} {log : List (String × SqlResult)}

abbrev answered (i : ι) (steps : Nat) (q : Request) :
    World ι × List (String × SqlResult) →
      Option (q.Answer × World ι × List (String × SqlResult)) :=
  reported Prod.mk i steps q

def Succeeded (log : List (String × SqlResult)) : Prop := ∀ x ∈ log, x.2 = .returned .success

/-- The last statement failed, and those before it succeeded. -/
def BrokenOff (log : List (String × SqlResult)) : Prop :=
  ∃ before sql r, log = before ++ [(sql, r)] ∧ Succeeded before ∧ r ≠ .returned .success

theorem Succeeded.concat (h : Succeeded log) (sql : String) :
    Succeeded (log ++ [(sql, .returned .success)]) := by
  intro x hx
  rcases List.mem_append.mp hx with hx | hx
  · exact h x hx
  · rw [List.mem_singleton.mp hx]

/-- However it goes on from statements that succeeded, what is left returns when those it sends
succeed, and throws when the last of them fails. -/
def Heeds (i : ι) (steps : Nat) (x : World ι × List (String × SqlResult)) (p : Execution α) :
    Prop :=
  Succeeded x.2 → Keeps (handled (answered i steps)) (fun _ y => Succeeded y.2)
    (fun e y => e = .thrown → BrokenOff y.2) x p

theorem Heeds.bind {f : α → Execution β} (h : Heeds i steps (w, log) p)
    (hf : ∀ a x, Heeds i steps x (f a)) : Heeds i steps (w, log) (p >>= f) :=
  fun hlog => keeps_bind.mpr ((h hlog).mono (fun a x hx => hf a x hx) fun _ _ => id)

end Outcomes

section Runs
variable {config : DdlConfig} {g : GapFree Table} {w' : World ι} {o : Except Halt Unit}
  {log : List (String × SqlResult)} {inputs : List Input}

end Runs
end PStress.Actions
