import ScriptC.Code.Printer
import ScriptC.Text
import Mathlib.Tactic.Common

/-! # Labels and jumps in text

The labels that a C text defines and those that it jumps to can be read off the text. Text that has
neither a colon nor the start of a `goto` is quiet, and that of all expressions is.
-/

namespace ScriptC

namespace Text

def isNamePart (c : Char) : Bool := c.isAlphanum || c == '_'

/-- The names in front of colons, where the name so far is `name` in reverse. -/
def labelsFrom (name : List Char) : List Char → List String
  | [] => []
  | c :: cs =>
    if c = ':' then String.ofList name.reverse :: labelsFrom [] cs
    else labelsFrom (if isNamePart c then c :: name else []) cs

/-- The labels that a text defines: the names in front of its colons. -/
def labels (s : String) : List String := labelsFrom [] s.toList

def gotosFrom : List Char → List String
  | [] => []
  | c :: cs =>
    match after? ['g', 'o', 't', 'o', ' '] (c :: cs) with
    | some rest => String.ofList (rest.takeWhile isNamePart) :: gotosFrom cs
    | none => gotosFrom cs

/-- The labels that a text jumps to: the names that follow a `goto`. -/
def gotos (s : String) : List String := gotosFrom s.toList

/-- Neither a colon nor anything that could start a jump. -/
def quietFrom : List Char → Bool
  | [] => true
  | [c] => c != ':' && c != 'g'
  | c :: d :: cs => c != ':' && !(c == 'g' && d == 'o') && quietFrom (d :: cs)

def Quiet (s : String) : Prop := quietFrom s.toList = true

instance (s : String) : Decidable (Quiet s) := inferInstanceAs (Decidable (_ = true))

section Quiet

theorem quietFrom_append {a b : List Char} (ha : quietFrom a = true) (hb : quietFrom b = true) :
    quietFrom (a ++ b) = true := by
  induction a using quietFrom.induct with
  | case1 => exact hb
  | case2 c =>
    cases b with
    | nil => exact ha
    | cons d cs =>
      simp only [quietFrom, Bool.and_eq_true, bne_iff_ne, ne_eq] at ha
      simp [quietFrom, ha, hb]
  | case3 c d cs ih =>
    simp only [quietFrom, Bool.and_eq_true] at ha
    simp only [List.cons_append, quietFrom, Bool.and_eq_true]
    exact ⟨ha.1, ih ha.2⟩

@[simp] theorem Quiet.append {s t : String} (hs : Quiet s) (ht : Quiet t) : Quiet (s ++ t) := by
  rw [Quiet, String.toList_append]
  exact quietFrom_append hs ht

theorem quietFrom_of_forall {cs : List Char} (h : ∀ c ∈ cs, c ≠ ':' ∧ c ≠ 'g') :
    quietFrom cs = true := by
  induction cs with
  | nil => rfl
  | cons c cs ih =>
    obtain ⟨hc, hcs⟩ := List.forall_mem_cons.mp h
    cases cs with
    | nil => simp [quietFrom, hc]
    | cons d cs => simp [quietFrom, hc, ih hcs]

@[simp] theorem quiet_toString (s : String) : Quiet (toString s) ↔ Quiet s := Iff.rfl

theorem ne_of_mem_toDigits {n : Nat} {c : Char} (h : c ∈ Nat.toDigits 10 n) : c ≠ ':' ∧ c ≠ 'g' := by
  have hdigit := Nat.isDigit_of_mem_toDigits (by decide) (by decide) h
  constructor <;> rintro rfl <;> cases hdigit

@[simp] theorem quiet_repr (n : Nat) : Quiet n.repr := by
  apply quietFrom_of_forall
  intro c hc
  rw [Nat.toList_repr] at hc
  exact ne_of_mem_toDigits hc

@[simp] theorem quiet_int (n : Int) : Quiet n.repr := by
  cases n with
  | ofNat n => exact quiet_repr n
  | negSucc n => exact Quiet.append (by decide) (quiet_repr (n + 1))

theorem quiet_intercalate {sep : String} (hsep : Quiet sep) {texts : List String}
    (h : ∀ s ∈ texts, Quiet s) : Quiet (String.intercalate sep texts) := by
  cases texts with
  | nil => exact rfl
  | cons s texts =>
    obtain ⟨hs, htexts⟩ := List.forall_mem_cons.mp h
    rw [String.intercalate]
    induction texts generalizing s with
    | nil => exact hs
    | cons t texts ih =>
      obtain ⟨ht, htexts⟩ := List.forall_mem_cons.mp htexts
      exact ih (s ++ sep ++ t) (by simp_all) (by simp [*]) htexts

theorem colon_not_mem {cs : List Char} (h : quietFrom cs = true) : ':' ∉ cs := by
  induction cs using quietFrom.induct with
  | case1 => exact List.not_mem_nil
  | case2 c =>
    simp only [quietFrom, Bool.and_eq_true, bne_iff_ne, ne_eq] at h
    simp [Ne.symm h.1]
  | case3 c d cs ih =>
    simp only [quietFrom, Bool.and_eq_true, bne_iff_ne, ne_eq] at h
    exact List.not_mem_cons_of_ne_of_not_mem (Ne.symm h.1.1) (ih h.2)

/-- A jump does not start within quiet text. -/
theorem gotosFrom_append {cs : List Char} (h : quietFrom cs = true) (rest : List Char) :
    gotosFrom (cs ++ rest) = gotosFrom rest := by
  induction cs using quietFrom.induct with
  | case1 => rfl
  | case2 c =>
    simp only [quietFrom, Bool.and_eq_true, bne_iff_ne, ne_eq] at h
    simp [gotosFrom, after?, Ne.symm h.2]
  | case3 c d cs ih =>
    simp only [quietFrom, Bool.and_eq_true] at h
    have hnone : after? ['g', 'o', 't', 'o', ' '] (c :: d :: (cs ++ rest)) = none := by
      have hgo : ¬ c = 'g' ∨ ¬ d = 'o' := by simpa using h.1.2
      rcases hgo with hc | hd
      · simp [after?, Ne.symm hc]
      · simp [after?, Ne.symm hd]
    rw [List.cons_append, List.cons_append, gotosFrom, hnone, ← ih h.2]
    rfl

end Quiet

end Text

open Text

section Expressions

theorem NumberLayout.ne_of_mem_zeros {n : Nat} {c : Char} (h : c ∈ zeros n) : c ≠ ':' ∧ c ≠ 'g' := by
  rw [List.eq_of_mem_replicate h]
  decide

theorem NumberLayout.ne_of_mem_positional {digits : List Char} (h : ∀ c ∈ digits, c ≠ ':' ∧ c ≠ 'g')
    (point : Int) : ∀ c ∈ positional digits point, c ≠ ':' ∧ c ≠ 'g' := by
  unfold positional
  intro c hc
  split at hc
  · simp only [List.mem_cons, List.mem_append] at hc
    rcases hc with rfl | rfl | hc | hc
    · decide
    · decide
    · exact ne_of_mem_zeros hc
    · exact h c hc
  · extract_lets n at hc
    split at hc
    · simp only [List.mem_append, List.mem_cons, List.not_mem_nil, or_false] at hc
      rcases hc with (hc | hc) | rfl | rfl
      · exact h c hc
      · exact ne_of_mem_zeros hc
      · decide
      · decide
    · simp only [List.mem_append, List.mem_cons] at hc
      rcases hc with hc | rfl | hc
      · exact h c (List.mem_of_mem_take hc)
      · decide
      · exact h c (List.mem_of_mem_drop hc)

theorem NumberLayout.quietFrom_scientific {l : NumberLayout} (hl : Quiet l.mark) {digits : List Char}
    (h : ∀ c ∈ digits, c ≠ ':' ∧ c ≠ 'g') (e : Int) : quietFrom (l.scientific digits e) = true := by
  unfold scientific
  extract_lets mantissa power
  have hmantissa : quietFrom mantissa = true := by
    apply quietFrom_of_forall
    intro c hc
    unfold mantissa at hc
    split at hc
    · cases hc
    · exact h c hc
    · rcases List.mem_cons.mp hc with rfl | hc
      · exact h _ List.mem_cons_self
      · rcases List.mem_cons.mp hc with rfl | hc
        · decide
        · exact h c (List.mem_cons_of_mem _ hc)
  have hpower : quietFrom power = true := by
    unfold power
    split
    · exact Quiet.append (by decide) (quiet_repr _)
    · exact hl.append (quiet_repr _)
  exact quietFrom_append hmantissa hpower

theorem NumberLayout.quiet_render {l : NumberLayout} (hl : Quiet l.mark) (x : Binary64) :
    Quiet (l.render x) := by
  have hunsigned : quietFrom (l.unsigned x) = true := by
    unfold unsigned
    split
    · decide
    · extract_lets d digits e
      have hdigits : ∀ c ∈ digits, c ≠ ':' ∧ c ≠ 'g' := fun c => ne_of_mem_toDigits
      split
      · exact quietFrom_of_forall (ne_of_mem_positional hdigits _)
      · exact quietFrom_scientific hl hdigits e
  rw [Quiet, render, String.toList_ofList]
  split
  · exact quietFrom_append (a := ['-']) (by decide) hunsigned
  · exact hunsigned

@[simp] theorem Binary64.quiet_listed (x : Binary64) : Quiet x.listed := by
  unfold listed
  split
  · decide
  · split
    · split <;> decide
    · exact NumberLayout.quiet_render (by decide) x

@[simp] theorem quiet_cFloat (x : Binary64) : Quiet (cFloat x) := by
  unfold cFloat
  split
  · decide
  · split
    · split <;> decide
    · split
      · exact Quiet.append (.append (by decide) x.quiet_listed) (by decide)
      · exact x.quiet_listed

@[simp] theorem quiet_cInt (n : Int64) : Quiet (cInt n) := by
  unfold cInt
  split
  · decide
  · split
    · exact Quiet.append (.append (by decide) (quiet_int _)) (by decide)
    · exact quiet_int _

theorem Sweep.quiet_text {count body : String} (hc : Quiet count) (hb : Quiet body) (d : Sweep) :
    Quiet (d.text count body) := by
  cases d
  all_goals
    dsimp only [text]
    repeat' with_reducible apply Quiet.append
    all_goals first | decide | assumption

@[simp] theorem quiet_windowCopy (dest src : Int) {count : String} (h : Quiet count) :
    Quiet (windowCopy dest src count) := by
  apply Sweep.quiet_text h
  repeat' with_reducible apply Quiet.append
  all_goals first | decide | exact quiet_int _

@[simp] theorem Address.quiet_text (a : Address) : Quiet a.text := by
  cases a
  all_goals
    dsimp only [text]
    repeat' with_reducible apply Quiet.append
    all_goals first | decide | simp +decide

@[simp] theorem Variable.quiet_text {letter : String} (h : Quiet letter) (v : Variable) :
    Quiet (v.text letter) := by
  cases v
  all_goals
    dsimp only [text]
    repeat' with_reducible apply Quiet.append
    all_goals first | decide | simp [h]

@[simp] theorem IntOp.quiet_symbol (op : IntOp) : Quiet op.symbol := by
  cases op <;> decide

@[simp] theorem FloatOp.quiet_symbol (op : FloatOp) : Quiet op.symbol := by
  cases op <;> decide

@[simp] theorem Relation.quiet_symbol (r : Relation) : Quiet r.symbol := by
  cases r <;> decide

@[simp] theorem Relation.quiet_helper (r : Relation) : Quiet r.helper := by
  cases r <;> decide

@[simp] theorem IntExpr.quiet_text (x : IntExpr) : Quiet x.text := by
  induction x
  all_goals
    dsimp only [text]
    repeat' with_reducible apply Quiet.append
    all_goals first | decide | assumption | simp +decide

@[simp] theorem FloatExpr.quiet_text (x : FloatExpr) : Quiet x.text := by
  induction x
  all_goals
    dsimp only [text]
    repeat' with_reducible apply Quiet.append
    all_goals first | decide | assumption | simp +decide

@[simp] theorem BoolExpr.quiet_text (x : BoolExpr) : Quiet x.text := by
  cases x with
  | constant value => cases value <;> decide
  | _ =>
    dsimp only [text]
    repeat' with_reducible apply Quiet.append
    all_goals first | decide | simp +decide

@[simp] theorem ErrorCode.quiet_text (code : ErrorCode) : Quiet code.text := by
  cases code <;> decide

@[simp] theorem RuntimeType.quiet_text (t : RuntimeType) : Quiet t.text := by
  cases t <;> decide

@[simp] theorem ElementKind.quiet_letter (kind : ElementKind) : Quiet kind.letter := by
  cases kind <;> decide

@[simp] theorem Check.quiet_text (check : Check) : Quiet check.text := by
  cases check
  all_goals
    dsimp only [text]
    repeat' with_reducible apply Quiet.append
    all_goals first | decide | simp +decide

@[simp] theorem Helper.quiet_name (helper : Helper) : Quiet helper.name := by
  cases helper <;> decide

@[simp] theorem Opcode.quiet_name (op : Opcode) : Quiet op.name := by
  cases op <;> decide

@[simp] theorem Argument.quiet_text (a : Argument) : Quiet a.text := by
  cases a
  all_goals
    dsimp only [text]
    repeat' with_reducible apply Quiet.append
    all_goals first | decide | simp +decide

end Expressions

end ScriptC
