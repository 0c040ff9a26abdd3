import ScriptC.Code.Elements
import ScriptC.Proofs.Generation.Signatures

/-! # Operands of admitted instructions

Once a proc has a frame and its prototype holds the string constants, an operand that is what an
instruction asks for can be read, and one that takes a result can be written.
-/

namespace ScriptC

/-- In a frame with this many locals, the slot of a selection has a number. -/
def Frame.Reaches (numLocals : Nat) (o : Operand) : Prop :=
  ∀ base index, o = .select base index → numLocals + base + index < wordLimit

namespace CodeContext

/-- The frame has a slot for every register, and the prototype a place for every string. -/
structure Complete (c : CodeContext) : Prop where
  strings : ∀ k s, c.proc.constants.get? k = some (.string s) → ∃ i, c.strings.lookup k = some i
  numLocals : c.frame.numLocals = c.proc.numLocals
  fits : c.proc.numLocals + c.proc.maxTemps .any < wordLimit

def Reaches (c : CodeContext) (o : Operand) : Prop := Frame.Reaches c.frame.numLocals o

/-- The operand is what the demand asks for, and within reach. -/
def Offers (c : CodeContext) (d : Demand) (o : Operand) : Prop := c.proc.Gives d o ∧ c.Reaches o

def Accepts (c : CodeContext) (kind : TempKind) (o : Operand) : Prop :=
  c.proc.Accepts kind o ∧ c.Reaches o

variable {c : CodeContext} {o t : Operand}

section Operands

theorem Offers.of_form? {d : Demand} {φ : Form} (h : c.proc.form? o = some φ) (hr : c.Reaches o)
    (hd : φ.meets d = true) : c.Offers d o :=
  ⟨.of_form? h hd, hr⟩

theorem Offers.form? {d : Demand} (h : c.Offers d o) (hd : d ≠ .nothing) :
    ∃ φ, c.proc.form? o = some φ ∧ φ.meets d = true := by
  rcases h.1 with rfl | h
  · exact absurd rfl hd
  · exact h

theorem Offers.float (h : c.Offers .int o) : c.Offers .float o := by
  obtain ⟨φ, hφ, hm⟩ := h.form? (by decide)
  exact .of_form? hφ h.2 (by cases φ <;> first | rfl | cases hm)

theorem slot?_of_lt {n : Nat} (hp : c.frame.position o = some n) (hn : n < wordLimit) :
    c.slot? o = .ok (some n) := by
  simp only [slot?, Frame.slot?, hp, Frame.checked, if_pos hn]
  rfl

theorem address?_of_position {n : Nat} (hp : c.frame.position o = some n) (hn : n < wordLimit) :
    c.address? o = .ok (some (.slot n)) := by
  have hs := slot?_of_lt hp hn
  unfold address?
  split
  · cases hp
  · cases hp
  · rw [hs]
    rfl

theorem Complete.address?_slot (hc : c.Complete) (h : c.proc.form? o = some .slot)
    (hr : c.Reaches o) : ∃ a, c.address? o = .ok (some a) := by
  have hn := hc.numLocals
  have hf := hc.fits
  cases o with
  | symbol ref =>
    cases ref with
    | localVar name reg tag =>
      obtain ⟨hreg, -⟩ := Option.ite_none_right_eq_some.mp h
      exact ⟨_, address?_of_position rfl (by omega)⟩
    | upvalue name index tag => exact ⟨_, rfl⟩
    | globalVar name => cases h
  | tempAny r =>
    obtain ⟨hreg, -⟩ := Option.ite_none_right_eq_some.mp h
    exact ⟨_, address?_of_position rfl (by omega)⟩
  | select base index => exact ⟨_, address?_of_position rfl (hr base index rfl)⟩
  | constant k =>
    obtain ⟨constant, -, hs⟩ := Option.map_eq_some_iff.mp h
    cases constant <;> cases hs
  | _ => cases h

theorem Complete.address? (hc : c.Complete) (h : c.Offers .address o) :
    ∃ a, c.address? o = .ok (some a) := by
  obtain ⟨φ, hφ, hm⟩ := h.form? (by decide)
  cases φ with
  | slot => exact hc.address?_slot hφ h.2
  | string =>
    cases o with
    | constant k =>
      obtain ⟨constant, hk, hs⟩ := Option.map_eq_some_iff.mp hφ
      cases constant with
      | string s =>
        obtain ⟨i, hi⟩ := hc.strings k s hk
        exact ⟨.constant i, by simp only [CodeContext.address?, Proc.constant?, hk, hi]⟩
      | _ => cases hs
    | symbol ref => cases ref <;> simp [Proc.form?] at hφ
    | _ => simp [Proc.form?] at hφ
  | _ => cases hm

theorem Complete.address (hc : c.Complete) (h : c.Offers .address o) :
    ∃ a, c.address o = .ok a := by
  obtain ⟨a, ha⟩ := hc.address? h
  exact ⟨a, by simp only [CodeContext.address, ha]; rfl⟩

/-- A number that is neither a constant nor native lies in a tagged value. -/
theorem Offers.slot (h : c.Offers .float o) (hk : ∀ k, o ≠ .constant k)
    (hi : ∀ r, o ≠ .tempInt r) (hf : ∀ r, o ≠ .tempFloat r) : c.Offers .address o := by
  obtain ⟨φ, hφ, hm⟩ := h.form? (by decide)
  refine .of_form? hφ h.2 ?_
  cases φ with
  | slot => rfl
  | int | float =>
    cases o with
    | tempInt r => exact absurd rfl (hi r)
    | tempFloat r => exact absurd rfl (hf r)
    | constant k => exact absurd rfl (hk k)
    | symbol ref => cases ref <;> simp [Proc.form?] at hφ
    | _ => simp [Proc.form?] at hφ
  | _ => cases hm

theorem Complete.intValue (hc : c.Complete) (h : c.Offers .int o) :
    ∃ x, c.intValue o = .ok x := by
  obtain ⟨φ, hφ, hm⟩ := h.form? (by decide)
  unfold CodeContext.intValue
  split
  · exact ⟨_, rfl⟩
  · obtain ⟨constant, hk, rfl⟩ := Option.map_eq_some_iff.mp hφ
    cases constant with
    | integer n => exact ⟨.literal n, by rw [Proc.constant?, hk]⟩
    | _ => cases hm
  · rename_i hi hk
    have hf : ∀ r, o ≠ .tempFloat r := by
      rintro r rfl
      cases hφ
      cases hm
    obtain ⟨a, ha⟩ := hc.address? (h.float.slot hk hi hf)
    exact ⟨.tagged a, by rw [ha]; rfl⟩

theorem Complete.floatValue (hc : c.Complete) (h : c.Offers .float o) :
    ∃ x, c.floatValue o = .ok x := by
  obtain ⟨φ, hφ, hm⟩ := h.form? (by decide)
  unfold CodeContext.floatValue
  split
  · exact ⟨_, rfl⟩
  · exact ⟨_, rfl⟩
  · obtain ⟨constant, hk, rfl⟩ := Option.map_eq_some_iff.mp hφ
    cases constant with
    | integer n => exact ⟨_, by rw [Proc.constant?, hk]⟩
    | number x => exact ⟨.literal x, by rw [Proc.constant?, hk]⟩
    | string => cases hm
  · rename_i ref
    obtain ⟨a, ha⟩ := hc.address? (h.slot (by simp) (by simp) (by simp))
    split
    · exact ⟨.ofInt (.tagged a), by simp only [CodeContext.intValue, ha]; rfl⟩
    · exact ⟨.tagged a, by rw [taggedFloat, ha]; rfl⟩
  · rename_i hf hi hk hs
    obtain ⟨a, ha⟩ := hc.address? (h.slot hk hi hf)
    exact ⟨.tagged a, by rw [taggedFloat, ha]; rfl⟩

/-- What the way a value is held says about reading it. Only a tagged value has an address. -/
def ReadsAs (c : CodeContext) (o : Operand) : Holding → Prop
  | .int => c.address? o = .ok none ∧ c.Offers .int o
  | .float => c.address? o = .ok none ∧ c.Offers .float o
  | .tagged => c.Offers .address o
  | .nil | .boolean _ => c.address? o = .ok none

theorem Offers.holding (h : c.Offers .value o) : ∃ k, c.holding o = .ok k ∧ c.ReadsAs o k := by
  obtain ⟨φ, hφ, -⟩ := h.form? (by decide)
  have of_form : ∀ {d}, φ.meets d = true → c.Offers d o := Offers.of_form? hφ h.2
  cases o with
  | constant k =>
    obtain ⟨constant, hk, rfl⟩ := Option.map_eq_some_iff.mp hφ
    cases constant with
    | integer n =>
      have ha : c.address? (.constant k) = .ok none := by rw [address?, Proc.constant?, hk]
      exact ⟨.int, by rw [CodeContext.holding, Proc.constant?, hk], ha, of_form rfl⟩
    | number x =>
      have ha : c.address? (.constant k) = .ok none := by rw [address?, Proc.constant?, hk]
      exact ⟨.float, by rw [CodeContext.holding, Proc.constant?, hk], ha, of_form rfl⟩
    | string s => exact ⟨.tagged, by rw [CodeContext.holding, Proc.constant?, hk], of_form rfl⟩
  | symbol ref =>
    cases ref with
    | localVar name reg tag =>
      obtain ⟨-, he⟩ := Option.ite_none_right_eq_some.mp hφ
      cases he
      exact ⟨.tagged, rfl, of_form rfl⟩
    | upvalue name index tag =>
      cases hφ
      exact ⟨.tagged, rfl, of_form rfl⟩
    | globalVar name => cases hφ
  | tempAny r | select base index =>
    obtain ⟨-, he⟩ := Option.ite_none_right_eq_some.mp hφ
    cases he
    exact ⟨.tagged, rfl, of_form rfl⟩
  | tempInt r =>
    cases hφ
    exact ⟨.int, rfl, rfl, of_form rfl⟩
  | tempFloat r =>
    cases hφ
    exact ⟨.float, rfl, rfl, of_form rfl⟩
  | nil => exact ⟨.nil, rfl, rfl⟩
  | true => exact ⟨.boolean true, rfl, rfl⟩
  | false => exact ⟨.boolean false, rfl, rfl⟩
  | _ => cases hφ

theorem Complete.tagged (hc : c.Complete) (h : c.Offers .value o) (d : Nat) :
    ∃ code, c.tagged o d = .ok code := by
  obtain ⟨k, hk, hr⟩ := h.holding
  unfold CodeContext.tagged
  cases k with
  | int =>
    obtain ⟨x, hx⟩ := hc.intValue hr.2
    exact ⟨_, by rw [hr.1]; simp only [hk, hx]; rfl⟩
  | float =>
    obtain ⟨x, hx⟩ := hc.floatValue hr.2
    exact ⟨_, by rw [hr.1]; simp only [hk, hx]; rfl⟩
  | tagged =>
    obtain ⟨a, ha⟩ := hc.address? hr
    exact ⟨_, by rw [ha]; rfl⟩
  | nil | boolean => exact ⟨_, by rw [show c.address? o = .ok none from hr]; simp only [hk]; rfl⟩

theorem Complete.falsity (hc : c.Complete) (h : c.Offers .value o) :
    ∃ x, c.falsity o = .ok x := by
  obtain ⟨k, hk, hr⟩ := h.holding
  unfold CodeContext.falsity
  rw [hk]
  cases k with
  | tagged =>
    obtain ⟨a, ha⟩ := hc.address hr
    exact ⟨.inr a, by simp only [ha]; rfl⟩
  | boolean b => cases b <;> exact ⟨_, rfl⟩
  | _ => exact ⟨_, rfl⟩

end Operands

section Stores

theorem Complete.store (hc : c.Complete) (h : c.Offers .value o) (dest : Address) :
    ∃ code, c.store dest o = .ok code := by
  obtain ⟨k, hk, hr⟩ := h.holding
  unfold CodeContext.store
  rw [hk]
  cases k with
  | int =>
    obtain ⟨x, hx⟩ := hc.intValue hr.2
    exact ⟨.storeInt dest x, by simp only [hx]; rfl⟩
  | float =>
    obtain ⟨x, hx⟩ := hc.floatValue hr.2
    exact ⟨.storeFloat dest x, by simp only [hx]; rfl⟩
  | tagged =>
    obtain ⟨a, ha⟩ := hc.address hr
    exact ⟨.copy dest a, by simp only [ha]; rfl⟩
  | _ => exact ⟨_, rfl⟩

theorem Accepts.address (h : c.Accepts .any t) : c.Offers .address t := by
  rcases h.1 with ht | ⟨hk, -⟩
  · exact .of_form? ht h.2 rfl
  · exact absurd rfl hk

theorem Complete.storeInt (hc : c.Complete) (h : c.Accepts .int t) (x : IntExpr) :
    ∃ code, c.storeInt t x = .ok code := by
  rcases h.1 with ht | ⟨-, r, rfl⟩
  · obtain ⟨a, ha⟩ := hc.address (.of_form? ht h.2 rfl)
    unfold CodeContext.storeInt
    split
    · exact ⟨_, rfl⟩
    · exact ⟨_, by rw [ha]; rfl⟩
  · exact ⟨_, rfl⟩

theorem Complete.storeFloat (hc : c.Complete) (h : c.Accepts .float t) (x : FloatExpr) :
    ∃ code, c.storeFloat t x = .ok code := by
  rcases h.1 with ht | ⟨-, r, rfl⟩
  · obtain ⟨a, ha⟩ := hc.address (.of_form? ht h.2 rfl)
    unfold CodeContext.storeFloat
    split
    · exact ⟨_, rfl⟩
    · exact ⟨_, by rw [ha]; rfl⟩
  · exact ⟨_, rfl⟩

theorem Complete.storeBool (hc : c.Complete) (h : c.Accepts .any t) (x : BoolExpr) :
    ∃ code, c.storeBool t x = .ok code := by
  obtain ⟨a, ha⟩ := hc.address h.address
  exact ⟨_, by rw [CodeContext.storeBool, ha]; rfl⟩

theorem Complete.checkedInt (hc : c.Complete) (h : c.Accepts .int t) (check : Check) :
    ∃ code, c.checkedInt check t = .ok code := by
  obtain ⟨code, hs⟩ := hc.storeInt h (.var .converted)
  exact ⟨_, by rw [CodeContext.checkedInt, hs]; rfl⟩

theorem Complete.checkedFloat (hc : c.Complete) (h : c.Accepts .float t) (check : Check) :
    ∃ code, c.checkedFloat check t = .ok code := by
  obtain ⟨code, hs⟩ := hc.storeFloat h (.var .converted)
  exact ⟨_, by rw [CodeContext.checkedFloat, hs]; rfl⟩

end Stores

theorem Complete.stringKey (hc : c.Complete) (h : c.Offers .stringKey o) :
    ∃ a, c.stringKey o = .ok a := by
  obtain ⟨φ, hφ, hm⟩ := h.form? (by decide)
  cases φ with
  | string =>
    obtain ⟨a, ha⟩ := hc.address (.of_form? hφ h.2 rfl)
    cases o with
    | constant k =>
      obtain ⟨constant, hk, hs⟩ := Option.map_eq_some_iff.mp hφ
      cases constant with
      | string s => exact ⟨a, by rw [CodeContext.stringKey, Proc.constant?, hk]; exact ha⟩
      | _ => cases hs
    | symbol ref => cases ref <;> simp [Proc.form?] at hφ
    | _ => simp [Proc.form?] at hφ
  | _ => cases hm

section Signatures

/-- The operands and the target are as the signature says. -/
structure Fits (c : CodeContext) (sig : Signature) (i : Instr) : Prop where
  reads : List.Forall₂ c.Offers sig.reads i.operands
  writes : ∀ kind ∈ sig.writes, ∃ t, i.targets = [t] ∧ c.Accepts kind t

variable {i : Instr} {sig : Signature}

theorem Fits.operand (h : c.Fits sig i) (n : Nat) {d : Demand} (hd : sig.reads[n]? = some d) :
    ∃ o, c.operand i n = .ok o ∧ c.Offers d o := by
  obtain ⟨hl, hf⟩ := List.forall₂_iff_get.mp h.reads
  obtain ⟨hn, rfl⟩ := List.getElem?_eq_some_iff.mp hd
  have hn' : n < i.operands.length := hl ▸ hn
  exact ⟨i.operands[n], by rw [CodeContext.operand, List.getElem?_eq_getElem hn'], hf n hn hn'⟩

theorem Fits.target (h : c.Fits sig i) {kind : TempKind} (hk : sig.writes = some kind) :
    ∃ t, c.target i 0 = .ok t ∧ c.Accepts kind t := by
  obtain ⟨t, ht, ha⟩ := h.writes kind hk
  exact ⟨t, by rw [CodeContext.target, ht]; rfl, ha⟩

end Signatures

end CodeContext

end ScriptC
