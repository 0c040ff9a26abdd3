import ScriptC.Proofs.Blocks.Discipline
import ScriptC.Proofs.Resources.Instructions

/-! # Code of admitted instructions

Every instruction that is admitted in its proc has code, provided that the proc has a frame and its
prototype holds the string constants.
-/

namespace ScriptC.CodeContext

variable {c : CodeContext} {o : Operand}

section Instructions

theorem ok_bind {α β : Type} (a : α) (f : α → Except Failure β) : (Except.ok a >>= f) = f a := rfl

variable {i : Instr} {sig : Signature} (hc : c.Complete)
include hc

section Control

omit hc in
theorem mapM_ok {α β : Type} {f : α → Except Failure β} {l : List α}
    (h : ∀ a ∈ l, ∃ b, f a = .ok b) : ∃ bs, l.mapM f = .ok bs := by
  induction l with
  | nil => exact ⟨[], rfl⟩
  | cons a l ih =>
    obtain ⟨⟨b, hb⟩, hl⟩ := List.forall_mem_cons.mp h
    obtain ⟨bs, hbs⟩ := ih hl
    exact ⟨b :: bs, by rw [List.mapM_cons, hb, ok_bind, hbs]; rfl⟩

theorem Complete.conditional {onTrue onFalse : Nat} (h : c.Fits ⟨[.value], none⟩ i)
    (ht : i.targets = [.block onTrue, .block onFalse]) : ∃ code, c.conditional i = .ok code := by
  obtain ⟨a, ha, hoa⟩ := h.operand 0 rfl
  obtain ⟨x, hx⟩ := hc.falsity hoa
  have ht₀ : c.blockTarget i 0 = .ok onTrue := by rw [blockTarget, CodeContext.target, ht]; rfl
  have ht₁ : c.blockTarget i 1 = .ok onFalse := by rw [blockTarget, CodeContext.target, ht]; rfl
  simp only [CodeContext.conditional, ha, ht₀, ht₁, hx, ok_bind]
  rcases x with (_ | _) | a
  all_goals exact ⟨_, rfl⟩

/-- Narrowing a range leaves a selection within reach. -/
theorem Complete.offers_narrowed (h : c.proc.Gives .value (narrowed o)) (hr : c.Reaches o) :
    c.Offers .value (narrowed o) := by
  refine ⟨h, ?_⟩
  unfold narrowed at h ⊢
  split
  · rename_i base
    rcases h with hd | ⟨φ, hφ, -⟩
    · cases hd
    · obtain ⟨hb, -⟩ := Option.ite_none_right_eq_some.mp hφ
      rintro _ _ ⟨⟩
      have := hc.fits
      have := hc.numLocals
      omega
  · exact hr

omit hc in
theorem not_isOpenRange_of_gives {p : Proc} (h : p.Gives .value (narrowed o)) :
    o.isOpenRange = false := by
  rcases h with hd | ⟨φ, hφ, -⟩
  · cases hd
  · unfold Operand.isOpenRange
    split
    · cases hφ
    · rfl

/-- The fixed values can be stored, and the tail lies on the stack. -/
theorem Complete.splitTail {os : List Operand} (h : c.proc.Lists os)
    (hr : ∀ o ∈ os, c.Reaches o) :
    ∃ fixed tail, CodeContext.splitTail os = (fixed, tail) ∧
      (∀ o ∈ fixed, c.Offers .value (narrowed o)) ∧
      ∀ dest, ∃ code, c.moveTail tail dest = .ok code := by
  obtain ⟨fixed, tail, rfl, hfixed, rfl | ⟨base, hb, rfl⟩⟩ := h
  · rw [List.append_nil] at hr ⊢
    have hs : CodeContext.splitTail fixed = (fixed, none) := by
      unfold CodeContext.splitTail
      split
      · rename_i o ho
        rw [not_isOpenRange_of_gives (hfixed o (List.mem_of_getLast? ho))]
        rfl
      · rfl
    exact ⟨fixed, none, hs, fun o ho => hc.offers_narrowed (hfixed o ho) (hr o ho),
      fun _ => ⟨[], rfl⟩⟩
  · have hs : CodeContext.splitTail (fixed ++ [.range base (-1)]) =
        (fixed, some (.range base (-1))) := by
      simp [CodeContext.splitTail, Operand.isOpenRange]
    have hslot : c.slot? (.range base (-1)) = .ok (some (c.frame.numLocals + base)) :=
      slot?_of_lt rfl (by have := hc.fits; have := hc.numLocals; omega)
    have hm : ∀ dest, ∃ code, c.moveTail (some (.range base (-1))) dest = .ok code := fun dest =>
      ⟨_, by simp only [moveTail, tailSlot, hslot, ok_bind]; rfl⟩
    exact ⟨fixed, _, hs, fun o ho => hc.offers_narrowed (hfixed o ho)
      (hr o (List.mem_append_left _ ho)), hm⟩

theorem Complete.ret (h : c.proc.Lists i.operands) (hr : ∀ o ∈ i.operands, c.Reaches o) :
    ∃ code, c.ret i = .ok code := by
  obtain ⟨fixed, tail, hs, hfixed, htail⟩ := hc.splitTail h hr
  obtain ⟨moved, hm⟩ := htail (fixed.length - 1)
  obtain ⟨kept, hk⟩ := mapM_ok (l := fixed.zipIdx)
    (f := fun x => c.store (.kept x.2) (narrowed x.1))
    fun _ hoj => hc.store (hfixed _ (List.fst_mem_of_mem_zipIdx hoj)) _
  apply Exists.intro
  rw [CodeContext.ret, hs]
  change (fixed.zipIdx.mapM fun x => c.store (.kept x.2) (narrowed x.1)) >>= _ = _
  rw [hk, ok_bind, hm]
  rfl

theorem Complete.call {base : Nat} {args : List Operand} {result count : Operand} {n : Int64}
    (ho : i.operands = .tempAny base :: args) (ht : i.targets = [result, count])
    (hb : base < c.proc.maxTemps .any) (h : c.proc.Lists args) (hr : ∀ o ∈ args, c.Reaches o)
    (hn : c.proc.constant? count = some (.integer n)) : ∃ code, c.call i = .ok code := by
  obtain ⟨fixed, tail, hs, hfixed, htail⟩ := hc.splitTail h hr
  have hslot : c.slot? (.tempAny base) = .ok (some (c.frame.numLocals + base)) :=
    slot?_of_lt rfl (by have := hc.fits; have := hc.numLocals; omega)
  obtain ⟨moved, hm⟩ := htail ((c.frame.numLocals + base : Nat) + 1 + fixed.length)
  obtain ⟨stored, hk⟩ := mapM_ok (l := fixed.zipIdx.reverse)
    (f := fun x => c.store (.argument (x.2 + 1)) (narrowed x.1))
    fun _ hoj => hc.store (hfixed _ (List.fst_mem_of_mem_zipIdx (List.mem_reverse.mp hoj))) _
  have h₀ : c.operand i 0 = .ok (.tempAny base) := by rw [CodeContext.operand, ho]; rfl
  have h₁ : c.target i 1 = .ok count := by rw [CodeContext.target, ht]; rfl
  have hf : c.tailSlot (.tempAny base) = .ok (c.frame.numLocals + base) := by
    rw [tailSlot, hslot]; rfl
  simp only [CodeContext.call, h₀, h₁, hf, hn, ho, List.tail_cons, hs, ok_bind]
  simp only [pure, Except.pure, hm, ok_bind]
  apply Exists.intro
  change (fixed.zipIdx.reverse.mapM fun x => c.store (.argument (x.2 + 1)) (narrowed x.1)) >>= _ = _
  rw [hk]
  rfl

theorem Complete.closure {child : Nat} {t : Operand} (ho : i.operands = [.proc child])
    (ht : i.targets = [t]) (hchild : child ∈ c.children) (hat : c.Accepts .any t) :
    ∃ code, c.closure i = .ok code := by
  obtain ⟨dest, hd⟩ := hc.address hat.address
  obtain ⟨index, hi⟩ := Option.isSome_iff_exists.mp (List.isSome_idxOf?.mpr hchild)
  have h₀ : c.operand i 0 = .ok (.proc child) := by rw [CodeContext.operand, ho]; rfl
  have h₁ : c.target i 0 = .ok t := by rw [CodeContext.target, ht]; rfl
  exact ⟨_, by simp only [CodeContext.closure, h₀, h₁, hi, hd, ok_bind]; rfl⟩

end Control

/-- Every instruction with the operands of its signature has code, once its branches lead to
blocks. -/
theorem Complete.plain {n : Nat} (h : c.Fits sig i) (hs : i.opcode.signature = some sig)
    (hb : i.TargetsWithin n) : ∃ code, c.instr i = .ok code := by
  cases ht : i.opcode.isTerminator with
  | false =>
    have hi : c.Handles True (fun _ => True) sig i := ⟨covers_any c i, fun _ => hc, fun _ => h⟩
    exact (hi.plain hs ht).returns trivial
  | true =>
    obtain ⟨opcode, operands, targets, block⟩ := i
    cases opcode with cases ht
    | br =>
      obtain ⟨b, -, ht⟩ := hb
      have hbr : c.blockTarget ⟨.br, operands, targets, block⟩ 0 = .ok b := by
        rw [blockTarget, CodeContext.target, ht]
        rfl
      exact ⟨[.goto b], by simp only [CodeContext.instr, hbr, ok_bind]; rfl⟩
    | cbr =>
      cases hs
      obtain ⟨onTrue, -, onFalse, -, ht⟩ := hb
      exact hc.conditional h ht
    | ret => cases hs

/-- Every instruction that is admitted has code, once its branches lead to blocks. -/
theorem Complete.instr {m : Module} {n : Nat}
    (ha : Site.Admits ⟨c.proc, m⟩ i.opcode i.operands i.targets)
    (hr : ∀ o ∈ i.operands ++ i.targets, c.Reaches o) (hb : i.TargetsWithin n)
    (hm : ∀ child, Site.HasChild ⟨c.proc, m⟩ child → child ∈ c.children) :
    ∃ code, c.instr i = .ok code := by
  have hro : ∀ o ∈ i.operands, c.Reaches o := fun o ho => hr o (List.mem_append_left _ ho)
  have hrt : ∀ t ∈ i.targets, c.Reaches t := fun t ht => hr t (List.mem_append_right _ ht)
  obtain ⟨opcode, operands, targets, block⟩ := i
  cases ha with
  | plain signature reads writes =>
    refine hc.plain ⟨?_, fun kind hk => ?_⟩ signature hb
    · exact List.forall₂_iff_get.mpr ⟨reads.length_eq, fun k hk hk' =>
        ⟨reads.get hk hk', hro _ (List.get_mem _ _)⟩⟩
    · obtain ⟨t, rfl, ht⟩ := writes kind hk
      exact ⟨t, rfl, ht, hrt t List.mem_cons_self⟩
  | ret results => exact hc.ret results hro
  | call callee passed expected =>
    exact hc.call rfl rfl callee passed (fun o ho => hro o (List.mem_cons_of_mem _ ho)) expected
  | closure nested writes =>
    exact hc.closure rfl rfl (hm _ nested) ⟨writes, hrt _ List.mem_cons_self⟩

end Instructions

end ScriptC.CodeContext
