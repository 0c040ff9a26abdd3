import Mathlib.Data.List.Basic
import ScriptC.Constant

/-! # Numbering of constants

Interning looks a constant up in the list of a pool and puts it at the end if it is not there, so a
constant keeps the index it was given first. However many constants are interned, the pool agrees
with the record of the calls and of what was answered to each.
-/

namespace ScriptC

namespace ConstantPool

section Interning

variable {p : ConstantPool} {c : Constant}

theorem intern_of_mem (h : c ∈ p.entries.toList) :
    p.intern c = (p, p.entries.toList.idxOf c, false) := by
  obtain ⟨index, hi⟩ := Option.isSome_iff_exists.mp (List.isSome_idxOf?.mpr h)
  have hf : p.entries.idxOf? c = some index := (List.idxOf?_toArray c _).trans hi
  rw [intern, hf, List.idxOf_eq_getD_idxOf?, hi, Option.getD_some]

theorem intern_of_notMem (h : c ∉ p.entries.toList) :
    p.intern c = (⟨p.entries.push c⟩, p.entries.toList.idxOf c, true) := by
  have hf : p.entries.idxOf? c = none := by simpa using h
  rw [intern, hf, List.idxOf_of_notMem h, Array.length_toList]

theorem prefix_intern (p : ConstantPool) (c : Constant) :
    p.entries.toList <+: (p.intern c).1.entries.toList := by
  by_cases h : c ∈ p.entries.toList
  · simp [intern_of_mem h]
  · rw [intern_of_notMem h, Array.toList_push]
    exact List.prefix_append _ _

theorem mem_intern {d : Constant} :
    d ∈ (p.intern c).1.entries.toList ↔ d ∈ p.entries.toList ∨ d = c := by
  by_cases h : c ∈ p.entries.toList
  · rw [intern_of_mem h]
    exact ⟨.inl, fun hd => hd.elim id fun he => he ▸ h⟩
  · rw [intern_of_notMem h, Array.toList_push, List.mem_append, List.mem_singleton]

/-- The answer is the place of the constant in the pool that interning leaves behind. -/
theorem index_intern (p : ConstantPool) (c : Constant) :
    (p.intern c).2.1 = (p.intern c).1.entries.toList.idxOf c := by
  by_cases h : c ∈ p.entries.toList
  · rw [intern_of_mem h]
  · rw [intern_of_notMem h, Array.toList_push, List.idxOf_append_of_notMem h, List.idxOf_of_notMem h,
      List.idxOf_cons_self, Nat.add_zero]

theorem flag_intern : (p.intern c).2.2 = true ↔ c ∉ p.entries.toList := by
  by_cases h : c ∈ p.entries.toList
  · simp [intern_of_mem h, h]
  · simp [intern_of_notMem h, h]

theorem get?_idxOf (h : c ∈ p.entries.toList) : p.get? (p.entries.toList.idxOf c) = some c := by
  rw [get?, ← Array.getElem?_toList]
  exact List.getElem?_idxOf h

/-- A constant is found where it was put. -/
theorem get?_intern (p : ConstantPool) (c : Constant) :
    (p.intern c).1.get? (p.intern c).2.1 = some c := by
  rw [index_intern]
  exact get?_idxOf (mem_intern.mpr (.inr rfl))

/-- A pool that grows at its end keeps its constants where they are. -/
theorem get?_of_prefix {q : ConstantPool} {k : Nat} (h : p.entries.toList <+: q.entries.toList)
    (hk : p.get? k = some c) : q.get? k = some c := by
  obtain ⟨hlt, rfl⟩ := Array.getElem?_eq_some_iff.mp hk
  rw [get?, ← Array.getElem?_toList]
  exact List.prefix_iff_getElem?.mp h k hlt

/-- A constant is put into a pool only once. -/
theorem nodup_intern (h : p.entries.toList.Nodup) (c : Constant) :
    (p.intern c).1.entries.toList.Nodup := by
  by_cases hc : c ∈ p.entries.toList
  · rwa [intern_of_mem hc]
  · rw [intern_of_notMem hc, Array.toList_push, List.nodup_append]
    refine ⟨h, by simp, fun a ha b hb he => ?_⟩
    exact hc (List.mem_singleton.mp hb ▸ he ▸ ha)

end Interning

/-- A constant that was interned, the index that was answered and whether it was said to be new. -/
structure Call where
  constant : Constant
  index : Nat
  isNew : Bool
deriving DecidableEq, Repr

def call (p : ConstantPool) (c : Constant) : Call := ⟨c, (p.intern c).2.1, (p.intern c).2.2⟩

/-- The calls that intern the constants, in their order. -/
def calls (p : ConstantPool) : List Constant → List Call
  | [] => []
  | c :: cs => p.call c :: (p.intern c).1.calls cs

/-- The pool agrees with the log of all calls on it, the first of which stands first. -/
structure Records (p : ConstantPool) (log : List Call) : Prop where
  mem : ∀ c, c ∈ p.entries.toList ↔ c ∈ log.map (·.constant)
  index : ∀ a ∈ log, a.index = p.entries.toList.idxOf a.constant
  isNew : ∀ n a, log[n]? = some a → (a.isNew = true ↔ a.constant ∉ (log.take n).map (·.constant))
  listed : (log.filter (·.isNew)).map (fun a => (a.constant, a.index)) = p.entries.toList.zipIdx

namespace Records

variable {p : ConstantPool} {log : List Call}

theorem mem_entries (h : p.Records log) {a : Call} (ha : a ∈ log) : a.constant ∈ p.entries.toList :=
  (h.mem _).mpr (List.mem_map_of_mem ha)

theorem empty : Records {} [] where
  mem := by simp
  index := by simp
  isNew := by simp
  listed := rfl

theorem intern (h : p.Records log) (c : Constant) :
    (p.intern c).1.Records (log ++ [p.call c]) where
  mem d := by
    rw [mem_intern, h.mem, List.map_append, List.mem_append, List.map_singleton,
      List.mem_singleton, call]
  index a ha := by
    rcases List.mem_append.mp ha with ha | ha
    · rw [h.index a ha, (p.prefix_intern c).idxOf_eq_of_mem (h.mem_entries ha)]
    · rw [List.mem_singleton.mp ha]
      exact p.index_intern c
  isNew n a hn := by
    rw [List.getElem?_append] at hn
    split at hn <;> rename_i hlt
    · rw [List.take_append_of_le_length (Nat.le_of_lt hlt)]
      exact h.isNew n a hn
    · -- the call just made stands last, so all others come before it
      obtain ⟨hz, rfl⟩ : n - log.length = 0 ∧ p.call c = a := by
        simpa [List.getElem?_singleton] using hn
      have he : n = log.length := by omega
      rw [he, List.take_left, ← h.mem]
      exact flag_intern
  listed := by
    rw [List.filter_append, List.map_append, h.listed]
    by_cases hc : c ∈ p.entries.toList
    · simp [call, intern_of_mem hc]
    · simp [call, intern_of_notMem hc, List.zipIdx_append, List.idxOf_of_notMem hc]

end Records

end ConstantPool

end ScriptC
