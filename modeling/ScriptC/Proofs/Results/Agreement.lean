import ScriptC.Proofs.Results.Certificates

/-! # Code under construction and its certificate

While a proc is built, its code agrees with a certificate up to the end of the current block. There
may be one call at that end for which it is not settled yet how many of its results are taken. Every
operation on procs extends the code or the certificate so that they agree again.
-/

namespace ScriptC

/-- A call at the end of the current block, with the number of results that it asks for so far. -/
structure OpenCall where
  call : Nat
  base : Nat
  count : Int64

namespace Certificate

/-- The number of results that a call asks for. -/
def count (C : Certificate) (j : Nat) : Int64 :=
  match C.taken j with
  | some n => Int64.ofNat n
  | none => -1

def settle (C : Certificate) (call n : Nat) : Certificate :=
  { C with taken := Function.update C.taken call (some n) }

def enter (C : Certificate) (b : Nat) (σ : Origins) : Certificate :=
  { C with entry := Function.update C.entry b σ }

end Certificate

namespace Instr.Admitted

variable {C D : Certificate} {σ : Standing} {i : Instr}

/-- A certificate may settle more calls, and promise something else where no branch leads. -/
theorem of_certificate (h : i.Admitted C σ) (ht : ∀ c n, C.taken c = some n → D.taken c = some n)
    (he : ∀ b, .block b ∈ i.targets → D.entry b = C.entry b) : i.Admitted D σ where
  operands := h.operands
  consumer := h.consumer
  results o ho r k hr := by
    obtain ⟨c, n, hc, hn, hk⟩ := h.results o ho r k hr
    exact ⟨c, n, hc, ht c n hn, hk⟩
  branches b hb := by
    rw [he b hb]
    exact h.branches b hb

/-- Other targets are fine as long as they name no block. -/
theorem withTargets (h : i.Admitted C σ) {targets : List Operand}
    (ht : ∀ b, .block b ∉ targets) : Admitted C σ { i with targets } where
  operands := h.operands
  consumer := h.consumer
  results := h.results
  branches b hb := absurd hb (ht b)

/-- Where the number of results is open, only a call or a return can follow. -/
theorem open?_eq_none (h : i.Admitted C σ) (hc : i.opcode ≠ .call) (hr : i.opcode ≠ .ret) :
    σ.open? = none := by
  cases ho : σ.open? with
  | none => rfl
  | some r =>
    rcases h.consumer (by simp [ho]) with hc' | hr'
    · exact absurd hc' hc
    · exact absurd hr' hr

end Instr.Admitted

namespace Proc.Listed

variable {p q : Proc} {b c j : Nat} {i : Instr}

theorem fresh (hb : p.blocks = #[[], []]) (hi : p.instrs = #[]) : p.Listed where
  block_eq b j hj := by simp [ids_fresh hb] at hj
  mem j i hj := by simp [hi] at hj
  nodup b := by simp [ids_fresh hb]

theorem of_eq (h : p.Listed) (hb : q.blocks = p.blocks) (hi : q.instrs = p.instrs) :
    q.Listed := by
  have hids : q.ids = p.ids := by funext b; simp only [ids, hb]
  constructor
  · rw [hids, hi]
    exact h.block_eq
  · rw [hids, hi]
    exact h.mem
  · rw [hids]
    exact h.nodup

theorem newBlock (h : p.Listed) : p.newBlock.1.Listed where
  block_eq b j hj := h.block_eq b j (by simpa using hj)
  mem j i hj := by simpa using h.mem j i hj
  nodup b := by simpa using h.nodup b

theorem lt_size (h : p.Listed) (hj : j ∈ p.ids b) : j < p.instrs.size := by
  obtain ⟨i, hi, -⟩ := h.block_eq b j hj
  exact (Array.getElem?_eq_some_iff.mp hi).1

theorem appended (h : p.Listed) (hc : c < p.blocks.size) (hi : i.block = c) :
    (p.appended c i).Listed := by
  have hlast : (p.appended c i).instrs[p.instrs.size]? = some i := by simp [Proc.appended]
  have hold {k : Nat} (hk : k < p.instrs.size) :
      (p.appended c i).instrs[k]? = p.instrs[k]? := by
    simp [Proc.appended, Array.getElem?_push_lt hk, hk]
  constructor
  · intro b j hj
    rw [ids_appended hc] at hj
    split at hj
    · rename_i hb
      rcases List.mem_append.mp hj with hj | hj
      · rw [hold (h.lt_size hj), hb]
        exact h.block_eq c j hj
      · rw [List.mem_singleton.mp hj, hb]
        exact ⟨i, hlast, hi⟩
    · rw [hold (h.lt_size hj)]
      exact h.block_eq b j hj
  · intro j i' hj
    rw [ids_appended hc]
    by_cases he : j = p.instrs.size
    · subst he
      obtain rfl : i = i' := Option.some.inj (hlast.symm.trans hj)
      simp [hi]
    · have hlt : j < p.instrs.size := by
        have := (Array.getElem?_eq_some_iff.mp hj).1
        rw [Proc.appended, Array.size_push] at this
        omega
      have hm := h.mem j i' (hold hlt ▸ hj)
      split
      · rename_i hb
        exact List.mem_append_left _ (hb ▸ hm)
      · exact hm
  · intro b
    rw [ids_appended hc]
    split
    · refine List.nodup_append.mpr ⟨h.nodup c, by simp, fun a ha k hk he => ?_⟩
      have := h.lt_size ha
      simp only [List.mem_singleton] at hk
      omega
    · exact h.nodup b

theorem modify (h : p.Listed) {f : Instr → Instr} (hf : ∀ i, (f i).block = i.block) (k : Nat) :
    Listed { p with instrs := p.instrs.modify k f } := by
  constructor
  · intro b j hj
    obtain ⟨i, hi, hb⟩ := h.block_eq b j hj
    simp only [Array.getElem?_modify, hi]
    split
    · exact ⟨f i, rfl, (hf i).trans hb⟩
    · exact ⟨i, rfl, hb⟩
  · intro j i hj
    simp only [Array.getElem?_modify] at hj
    split at hj
    · obtain ⟨i', hi', rfl⟩ := Option.map_eq_some_iff.mp hj
      rw [hf]
      exact h.mem j i' hi'
    · exact h.mem j i hj
  · exact h.nodup

/-- An instruction that moves leaves no trace behind. -/
theorem ids_relocate (h : p.Listed) (hq : p.relocate j b = .ok q) (c : Nat) :
    q.ids c = (p.ids c).filter (· != j) ++ if c = b then [j] else [] := by
  obtain ⟨i, hi, -, -, -, -, hids⟩ := relocate_ok hq
  rw [hids]
  split
  · rfl
  · rename_i hc
    have hnot : j ∉ p.ids c := by
      intro hm
      obtain ⟨i', hi', rfl⟩ := h.block_eq c j hm
      obtain rfl : i = i' := Option.some.inj (hi.symm.trans hi')
      exact hc rfl
    have hfilter : (p.ids c).filter (· != j) = p.ids c := by
      refine List.filter_eq_self.mpr fun k hk => ?_
      simpa using fun he : k = j => hnot (he ▸ hk)
    rw [hfilter]

theorem relocate (h : p.Listed) (hq : p.relocate j b = .ok q) : q.Listed := by
  have hids := h.ids_relocate hq
  obtain ⟨i, hi, hinstrs, -⟩ := relocate_ok hq
  constructor
  · intro c k hk
    rw [hids] at hk
    rw [hinstrs, Array.getElem?_modify]
    rcases List.mem_append.mp hk with hk | hk
    · obtain ⟨hk, hne⟩ := List.mem_filter.mp hk
      rw [if_neg fun he => by simp [he] at hne]
      exact h.block_eq c k hk
    · split at hk
      · rename_i hc
        simp only [List.mem_singleton] at hk
        rw [if_pos hk.symm, hk, hi, hc]
        exact ⟨_, rfl, rfl⟩
      · simp at hk
  · intro k i' hk
    rw [hids]
    rw [hinstrs, Array.getElem?_modify] at hk
    split at hk
    · rename_i he
      subst he
      obtain ⟨_, -, rfl⟩ := Option.map_eq_some_iff.mp hk
      simp
    · rename_i he
      refine List.mem_append_left _ (List.mem_filter.mpr ⟨h.mem k i' hk, ?_⟩)
      simpa using Ne.symm he
  · intro c
    rw [hids]
    refine List.nodup_append.mpr ⟨(h.nodup c).filter _, ?_, fun a ha k hk he => ?_⟩
    · split <;> simp
    · split at hk
      · simp_all
      · simp at hk

end Proc.Listed

namespace Proc

/-- The call has its results from `r` on and asks for `count` of them. -/
def Asks (p : Proc) (i : Instr) (r : Nat) (count : Int64) : Prop :=
  ∃ args k, i.operands = .tempAny r :: args ∧ i.targets = [.range r (-1), .constant k] ∧
    p.constants.get? k = some (.integer count)

/-- The code agrees with the certificate up to the end of the current block. -/
structure Agrees (p : Proc) (C : Certificate) (current : Nat) (open? : Option OpenCall) : Prop where
  certified : p.Certified C
  entry_eq : ∀ b, b = entryBlock ∨ b = exitBlock ∨ p.blocks.size ≤ b → C.entry b = fun _ => none
  taken_eq : ∀ j, p.instrs.size ≤ j → C.taken j = none
  calls : ∀ j i, p.instrs[j]? = some i → i.opcode = .call → (∀ o ∈ open?, o.call ≠ j) →
    ∃ r, p.Asks i r (C.count j) ∧ ∀ n, C.taken j = some n → r + n ≤ p.anys.next
  settled : ∀ b, b ≠ current ∨ open? = none → (p.standing C b (p.ids b)).open? = none
  unsettled : ∀ o ∈ open?, (∃ start, p.ids current = start ++ [o.call]) ∧ C.taken o.call = none ∧
    ∃ i, p.instrs[o.call]? = some i ∧ i.opcode = .call ∧ p.Asks i o.base o.count
  promised : ∀ b r j, C.entry b r = some j → p.calleeOf? j = some r

variable {p q : Proc} {C D : Certificate} {c b j r : Nat} {open? : Option OpenCall} {i : Instr}
  {ids : List Nat} {count : Int64}

theorem Asks.callee? (h : p.Asks i r count) (hc : i.opcode = .call) : i.callee? = some r := by
  obtain ⟨args, k, ho, -⟩ := h
  rw [Instr.callee?, hc, ho]

theorem Asks.of_constants (h : p.Asks i r count)
    (hk : ∀ k c, p.constants.get? k = some c → q.constants.get? k = some c) :
    q.Asks i r count := by
  obtain ⟨args, k, ho, ht, hc⟩ := h
  exact ⟨args, k, ho, ht, hk k _ hc⟩

theorem calleeOf?_of_instrs (h : q.instrs = p.instrs) : q.calleeOf? j = p.calleeOf? j := by
  rw [calleeOf?, calleeOf?, h]

theorem standing_of_instrs (h : q.instrs = p.instrs) : q.standing C b ids = p.standing C b ids :=
  standing_congr rfl (fun _ _ => calleeOf?_of_instrs h) fun _ _ _ => rfl

theorem lt_of_calleeOf? (h : p.calleeOf? j = some r) : j < p.instrs.size := by
  obtain ⟨i, hi, -⟩ := Option.bind_eq_some_iff.mp h
  exact (Array.getElem?_eq_some_iff.mp hi).1

theorem calleeOf?_appended (hj : j < p.instrs.size) :
    (p.appended c i).calleeOf? j = p.calleeOf? j := by
  simp [calleeOf?, appended, Array.getElem?_push_lt hj, hj]

theorem calleeOf?_appended_last : (p.appended c i).calleeOf? p.instrs.size = i.callee? := by
  simp [calleeOf?, appended]

theorem standing_appended (h : ∀ j ∈ ids, j < p.instrs.size) :
    (p.appended c i).standing C b ids = p.standing C b ids :=
  standing_congr rfl (fun j hj => calleeOf?_appended (h j hj)) fun _ _ _ => rfl

/-- An instruction may change as long as its callee stays the same. -/
theorem calleeOf?_modify {f : Instr → Instr}
    (hf : ∀ i, p.instrs[j]? = some i → (f i).callee? = i.callee?) (k : Nat) :
    calleeOf? { p with instrs := p.instrs.modify j f } k = p.calleeOf? k := by
  simp only [calleeOf?, Array.getElem?_modify]
  split
  · rename_i hk
    subst hk
    cases hi : p.instrs[j]? with
    | none => rfl
    | some i => exact hf i hi
  · rfl

namespace Agrees

/-- Where results are at hand, a call has left them. -/
theorem calleeOf?_of_origins (h : p.Agrees C c open?)
    (hj : (p.standing C b ids).origins r = some j) : p.calleeOf? j = some r := by
  rw [origins_standing] at hj
  cases hl : p.lastCall? r ids with
  | none =>
    rw [hl, Option.none_or] at hj
    exact h.promised b r j hj
  | some j' =>
    rw [hl, Option.some_or] at hj
    cases hj
    have hfound := List.find?_some (p := fun k => p.calleeOf? k == some r) hl
    exact beq_iff_eq.mp hfound

/-- What the code leaves at the end of the current block. -/
theorem standing_unsettled {o : OpenCall} (h : p.Agrees C c (some o)) :
    ∃ start, p.ids c = start ++ [o.call] ∧ p.standing C c (p.ids c) =
      ⟨Function.update (p.standing C c start).origins o.base (some o.call), some o.base⟩ := by
  obtain ⟨⟨start, hs⟩, ht, i, hi, hc, ha⟩ := h.unsettled o rfl
  refine ⟨start, hs, ?_⟩
  rw [hs, standing_concat, advance_of_calleeOf? (r := o.base), ht]
  · rfl
  · rw [calleeOf?, hi]
    exact ha.callee? hc

/-- The registers matter only for the room they give to the results, and constants may be added. -/
theorem of_code (h : p.Agrees C c open?) (hb : q.blocks = p.blocks) (hi : q.instrs = p.instrs)
    (hk : ∀ k c, p.constants.get? k = some c → q.constants.get? k = some c)
    (hn : p.anys.next ≤ q.anys.next) : q.Agrees C c open? := by
  have hids : q.ids = p.ids := by funext b; simp only [ids, hb]
  constructor
  · intro b
    rw [hids]
    exact (h.certified b).transfer rfl (fun _ _ => calleeOf?_of_instrs hi) (fun _ _ _ => rfl)
      fun j _ i hj => ⟨i, hi ▸ hj, fun _ ha => ha⟩
  · rw [hb]
    exact h.entry_eq
  · rw [hi]
    exact h.taken_eq
  · intro j i hj hc ho
    obtain ⟨r, ha, hr⟩ := h.calls j i (hi ▸ hj) hc ho
    exact ⟨r, ha.of_constants hk, fun n ht => Nat.le_trans (hr n ht) hn⟩
  · intro b hb'
    rw [standing_of_instrs hi, hids]
    exact h.settled b hb'
  · intro o ho
    obtain ⟨hs, ht, i, hj, hc, ha⟩ := h.unsettled o ho
    rw [hids, hi]
    exact ⟨hs, ht, i, hj, hc, ha.of_constants hk⟩
  · intro b r j hj
    rw [calleeOf?_of_instrs hi]
    exact h.promised b r j hj

theorem newBlock (h : p.Agrees C c open?) : p.newBlock.1.Agrees C c open? := by
  have hs : p.newBlock.1.blocks.size = p.blocks.size + 1 := Array.size_push _
  constructor
  · intro b
    rw [ids_newBlock]
    exact h.certified b
  · rintro b (hb | hb | hb)
    · exact h.entry_eq b (Or.inl hb)
    · exact h.entry_eq b (Or.inr (Or.inl hb))
    · exact h.entry_eq b (Or.inr (Or.inr (by omega)))
  · exact h.taken_eq
  · exact h.calls
  · intro b hb
    rw [ids_newBlock]
    exact h.settled b hb
  · intro o ho
    rw [ids_newBlock]
    exact h.unsettled o ho
  · exact h.promised

/-- Another block may become current unless a call is open. -/
theorem start (h : p.Agrees C c none) (b : Nat) : p.Agrees C b none where
  __ := h
  settled x _ := h.settled x (Or.inr rfl)
  unsettled _ ho := nomatch ho

/-- The certificate may promise any calls in an empty block that no branch leads to. -/
theorem enter {σ : Origins} (h : p.Agrees C c open?) (hσ : ∀ r j, σ r = some j → p.calleeOf? j = some r)
    (hempty : p.ids b = []) (hb : b < p.blocks.size) (hentry : b ≠ entryBlock) (hexit : b ≠ exitBlock)
    (href : ∀ i ∈ p.instrs, .block b ∉ i.targets) : p.Agrees (C.enter b σ) c open? := by
  have hother (x : Nat) (hx : x ≠ b) : (C.enter b σ).entry x = C.entry x :=
    Function.update_of_ne hx _ _
  have hstanding (x : Nat) : (p.standing (C.enter b σ) x (p.ids x)).open? =
      (p.standing C x (p.ids x)).open? := by
    by_cases hx : x = b
    · simp [hx, hempty]
    · rw [standing_congr (hother x hx) (fun _ _ => rfl) fun _ _ _ => rfl]
  constructor
  · intro x
    by_cases hx : x = b
    · rw [hx, hempty]
      exact admits_nil
    · refine (h.certified x).transfer (hother x hx) (fun _ _ => rfl) (fun _ _ _ => rfl)
        fun j _ i hj => ⟨i, hj, fun τ ha => ha.of_certificate (fun _ _ ht => ht) fun y hy => ?_⟩
      refine hother y fun he => href i (Array.mem_of_getElem? hj) ?_
      rwa [← he]
  · intro x hx
    rw [hother x (by omega)]
    exact h.entry_eq x hx
  · exact h.taken_eq
  · exact h.calls
  · intro x hx
    rw [hstanding]
    exact h.settled x hx
  · exact h.unsettled
  · intro x r j hj
    by_cases hx : x = b
    · subst hx
      refine hσ r j ?_
      rwa [show (C.enter x σ).entry x = σ from Function.update_self _ _ _] at hj
    · rw [hother x hx] at hj
      exact h.promised x r j hj

section Append

theorem promised_appended (h : p.Agrees C c open?) :
    ∀ b r j, C.entry b r = some j → (p.appended c i).calleeOf? j = some r := by
  intro b r j hj
  have hr := h.promised b r j hj
  rwa [calleeOf?_appended (lt_of_calleeOf? hr)]

/-- An instruction that is admitted at the end of the current block may be added there. -/
theorem certified_appended (h : p.Agrees C c open?) (hlt : ∀ b, ∀ j ∈ p.ids b, j < p.instrs.size)
    (hc : c < p.blocks.size) (hi : i.Admitted C (p.standing C c (p.ids c))) :
    (p.appended c i).Certified C := by
  have hold (b : Nat) : (p.appended c i).Admits C b (p.ids b) := by
    refine (h.certified b).transfer rfl (fun j hj => calleeOf?_appended (hlt b j hj))
      (fun _ _ _ => rfl) fun j hj i' hi' => ⟨i', ?_, fun _ ha => ha⟩
    have hj' := hlt b j hj
    simpa [appended, Array.getElem?_push_lt hj', hj'] using hi'
  intro b
  rw [ids_appended hc]
  split
  · rename_i hb
    rw [hb, admits_concat, standing_appended (hlt c)]
    refine ⟨hold c, fun i' hi' => ?_⟩
    obtain rfl : i = i' := by simpa [appended] using hi'
    exact hi
  · exact hold b

theorem standing_appended_last (hlt : ∀ b, ∀ j ∈ p.ids b, j < p.instrs.size)
    (hc : c < p.blocks.size) :
    (p.appended c i).standing C c ((p.appended c i).ids c) =
      match i.callee? with
      | some r => ⟨Function.update (p.standing C c (p.ids c)).origins r (some p.instrs.size),
          if (C.taken p.instrs.size).isSome then none else some r⟩
      | none => ⟨(p.standing C c (p.ids c)).origins, none⟩ := by
  rw [ids_appended hc, if_pos rfl, standing_concat, standing_appended (hlt c), advance]
  cases hr : i.callee? with
  | none => rw [calleeOf?_appended_last, hr]
  | some r => rw [calleeOf?_appended_last, hr]

theorem settled_appended (h : p.Agrees C c open?) (hlt : ∀ b, ∀ j ∈ p.ids b, j < p.instrs.size)
    (hc : c < p.blocks.size) (hb : b ≠ c) :
    ((p.appended c i).standing C b ((p.appended c i).ids b)).open? = none := by
  rw [ids_appended hc, if_neg hb, standing_appended (hlt b)]
  exact h.settled b (Or.inl hb)

/-- What calls ask for is known, also of one that is passed on now. -/
theorem calls_appended (h : p.Agrees C c open?) (hcount : ∀ o ∈ open?, o.count = -1) :
    ∀ j i', (p.appended c i).instrs[j]? = some i' → i'.opcode = .call → j ≠ p.instrs.size →
      ∃ r, p.Asks i' r (C.count j) ∧ ∀ n, C.taken j = some n → r + n ≤ p.anys.next := by
  intro j i' hj hcall hne
  simp only [appended, Array.getElem?_push, if_neg hne] at hj
  by_cases ho : ∃ o ∈ open?, o.call = j
  · obtain ⟨o, ho, rfl⟩ := ho
    obtain ⟨-, ht, i₁, hi₁, -, ha⟩ := h.unsettled o ho
    obtain rfl : i₁ = i' := Option.some.inj (hi₁.symm.trans hj)
    refine ⟨o.base, ?_, fun n hn => ?_⟩
    · rwa [Certificate.count, ht, ← hcount o ho]
    · rw [ht] at hn
      cases hn
  · push Not at ho
    exact h.calls j i' hj hcall ho

theorem append (h : p.Agrees C c open?) (hlt : ∀ b, ∀ j ∈ p.ids b, j < p.instrs.size)
    (hc : c < p.blocks.size) (hi : i.Admitted C (p.standing C c (p.ids c)))
    (hcount : ∀ o ∈ open?, o.count = -1) (hcall : i.opcode ≠ .call) :
    (p.appended c i).Agrees C c none := by
  have hsize : (p.appended c i).instrs.size = p.instrs.size + 1 := Array.size_push _
  constructor
  · exact h.certified_appended hlt hc hi
  · rw [appended, Array.size_modify]
    exact h.entry_eq
  · intro j hj
    exact h.taken_eq j (by omega)
  · intro j i' hj hcall' _
    refine h.calls_appended hcount j i' hj hcall' ?_
    rintro rfl
    obtain rfl : i = i' := by simpa [appended] using hj
    exact hcall hcall'
  · intro b _
    by_cases hb : b = c
    · rw [hb, standing_appended_last hlt hc, Instr.callee?_eq_none hcall]
    · exact h.settled_appended hlt hc hb
  · rintro o ⟨⟩
  · exact h.promised_appended

/-- A call is open when it is added. -/
theorem appendCall (h : p.Agrees C c open?) (hlt : ∀ b, ∀ j ∈ p.ids b, j < p.instrs.size)
    (hc : c < p.blocks.size) (hi : i.Admitted C (p.standing C c (p.ids c)))
    (hcount : ∀ o ∈ open?, o.count = -1) (hcall : i.opcode = .call) (ha : p.Asks i r count) :
    (p.appended c i).Agrees C c (some ⟨p.instrs.size, r, count⟩) := by
  have hsize : (p.appended c i).instrs.size = p.instrs.size + 1 := Array.size_push _
  constructor
  · exact h.certified_appended hlt hc hi
  · rw [appended, Array.size_modify]
    exact h.entry_eq
  · intro j hj
    exact h.taken_eq j (by omega)
  · intro j i' hj hcall' ho
    exact h.calls_appended hcount j i' hj hcall' fun he => ho _ rfl he.symm
  · intro b hb
    exact h.settled_appended hlt hc (hb.resolve_right (by simp))
  · rintro o ⟨⟩
    refine ⟨⟨p.ids c, by rw [ids_appended hc, if_pos rfl]⟩, h.taken_eq _ (Nat.le_refl _), i, ?_,
      hcall, ha⟩
    simp [appended]
  · exact h.promised_appended

end Append

section Settlement

variable {o : OpenCall}

/-- An open call may ask for another number of results. -/
theorem ask {k : Nat} (h : p.Agrees C c (some o))
    (hk : p.constants.get? k = some (.integer count)) :
    Agrees { p with instrs := p.instrs.modify o.call fun i =>
      { i with targets := i.targets.set 1 (.constant k) } } C c (some { o with count }) := by
  obtain ⟨hstart, htaken, i₀, hi₀, hcall₀, args, k₀, ho₀, ht₀, -⟩ := h.unsettled o rfl
  have hset : i₀.targets.set 1 (.constant k) = [.range o.base (-1), .constant k] := by
    rw [ht₀]
    rfl
  have hcallee := calleeOf?_modify (p := p) (j := o.call) (f := fun i =>
    { i with targets := i.targets.set 1 (.constant k) }) fun _ _ => rfl
  constructor
  · intro b
    refine (h.certified b).transfer rfl (fun j _ => hcallee j) (fun _ _ _ => rfl) ?_
    intro j _ i hj
    simp only [Array.getElem?_modify] at hj
    split at hj
    · rename_i he
      subst he
      obtain ⟨i', hi', rfl⟩ := Option.map_eq_some_iff.mp hj
      obtain rfl : i₀ = i' := Option.some.inj (hi₀.symm.trans hi')
      refine ⟨i₀, hi₀, fun σ ha => ha.withTargets fun b hb => ?_⟩
      rw [hset] at hb
      simp at hb
    · exact ⟨i, hj, fun _ ha => ha⟩
  · exact h.entry_eq
  · intro j hj
    exact h.taken_eq j (by simpa using hj)
  · intro j i hj hcall ho
    have hne : o.call ≠ j := ho { o with count } rfl
    simp only [Array.getElem?_modify, if_neg hne] at hj
    refine h.calls j i hj hcall ?_
    rintro _ ⟨⟩
    exact hne
  · intro b hb
    rw [standing_congr rfl (fun j _ => hcallee j) fun _ _ _ => rfl]
    exact h.settled b (Or.inl (hb.resolve_right (by simp)))
  · rintro _ ⟨⟩
    refine ⟨hstart, htaken, { i₀ with targets := i₀.targets.set 1 (.constant k) }, ?_, hcall₀,
      args, k, ho₀, hset, hk⟩
    show (p.instrs.modify o.call _)[o.call]? = _
    rw [Array.getElem?_modify, if_pos rfl, hi₀]
    rfl
  · intro b r j hj
    rw [hcallee]
    exact h.promised b r j hj

/-- It is settled how many results of the open call are taken. -/
theorem settle {n : Nat} (h : p.Agrees C c (some o)) (hl : p.Listed) (hn : o.count = Int64.ofNat n)
    (hroom : o.base + n ≤ p.anys.next) : p.Agrees (C.settle o.call n) c none := by
  obtain ⟨⟨start, hstart⟩, htaken, i₀, hi₀, hcall₀, ha₀⟩ := h.unsettled o rfl
  have hother (j : Nat) (hj : j ≠ o.call) : (C.settle o.call n).taken j = C.taken j :=
    Function.update_of_ne hj _ _
  have hmono (x m : Nat) (hx : C.taken x = some m) : (C.settle o.call n).taken x = some m := by
    rw [hother x fun he => by simp [he, htaken] at hx]
    exact hx
  -- The call occurs nowhere but at the end of the current block.
  have hfresh (b : Nat) (hb : b ≠ c) : o.call ∉ p.ids b := by
    intro hm
    obtain ⟨i, hi, rfl⟩ := hl.block_eq b _ hm
    obtain ⟨i', hi', rfl⟩ := hl.block_eq c o.call (by simp [hstart])
    obtain rfl : i = i' := Option.some.inj (hi.symm.trans hi')
    exact hb rfl
  have hnot : o.call ∉ start := by
    have := hl.nodup c
    rw [hstart] at this
    exact fun hm => (List.nodup_append.mp this).2.2 _ hm _ (by simp) rfl
  have hpart {b : Nat} {ids : List Nat} (hids : o.call ∉ ids) (hadm : p.Admits C b ids) :
      p.Admits (C.settle o.call n) b ids :=
    hadm.transfer rfl (fun _ _ => rfl) (fun j hj _ => hother j fun he => hids (he ▸ hj))
      fun j _ i hj => ⟨i, hj, fun _ ha => ha.of_certificate hmono fun _ _ => rfl⟩
  have hsame {b : Nat} {ids : List Nat} (hids : o.call ∉ ids) :
      p.standing (C.settle o.call n) b ids = p.standing C b ids :=
    standing_congr rfl (fun _ _ => rfl) fun j hj _ => hother j fun he => hids (he ▸ hj)
  constructor
  · intro b
    by_cases hb : b = c
    · have hadm := h.certified c
      rw [hstart, admits_concat] at hadm
      rw [hb, hstart, admits_concat, hsame hnot]
      exact ⟨hpart hnot hadm.1, fun i hi => (hadm.2 i hi).of_certificate hmono fun _ _ => rfl⟩
    · exact hpart (hfresh b hb) (h.certified b)
  · exact h.entry_eq
  · intro j hj
    have hlt := (Array.getElem?_eq_some_iff.mp hi₀).1
    rw [hother j (by omega)]
    exact h.taken_eq j hj
  · intro j i hj hcall _
    by_cases he : j = o.call
    · subst he
      obtain rfl : i₀ = i := Option.some.inj (hi₀.symm.trans hj)
      have ht : (C.settle o.call n).taken o.call = some n := Function.update_self _ _ _
      refine ⟨o.base, ?_, fun m hm => ?_⟩
      · rw [Certificate.count, ht]
        show p.Asks i₀ o.base (Int64.ofNat n)
        rwa [← hn]
      · rw [ht] at hm
        cases hm
        exact hroom
    · obtain ⟨r, ha, hr⟩ := h.calls j i hj hcall fun x hx => by
        cases hx
        exact Ne.symm he
      rw [Certificate.count, hother j he]
      exact ⟨r, ha, hr⟩
  · intro b _
    by_cases hb : b = c
    · rw [hb, hstart, standing_concat, advance_of_calleeOf? (r := o.base)]
      · simp [Certificate.settle]
      · rw [calleeOf?, hi₀]
        exact ha₀.callee? hcall₀
    · rw [hsame (hfresh b hb)]
      exact h.settled b (Or.inl hb)
  · rintro x ⟨⟩
  · exact h.promised

theorem origins_settle {call n : Nat} :
    (p.standing (C.settle call n) b ids).origins = (p.standing C b ids).origins := by
  funext r
  rw [origins_standing, origins_standing]
  rfl

end Settlement

section Stores

/-- Leaving out an instruction that is neither a call nor a return changes nothing. -/
theorem admits_filter (hi : p.instrs[j]? = some i) (hc : i.opcode ≠ .call) (hr : i.opcode ≠ .ret)
    (h : p.Admits C b ids) : p.Admits C b (ids.filter (· != j)) ∧
      p.standing C b (ids.filter (· != j)) = p.standing C b ids := by
  induction ids using List.reverseRecOn with
  | nil => exact ⟨h, rfl⟩
  | append_singleton ids k ih =>
    obtain ⟨hinit, hk⟩ := admits_concat.mp h
    obtain ⟨hadm, hstand⟩ := ih hinit
    by_cases he : k = j
    · subst he
      have hopen := (hk i hi).open?_eq_none hc hr
      have hnone : p.calleeOf? k = none := by
        rw [calleeOf?, hi]
        exact Instr.callee?_eq_none hc
      rw [List.filter_append, standing_concat, advance_of_not_call hnone, ← hopen]
      simpa using ⟨hadm, hstand⟩
    · have hkeep : (ids ++ [k]).filter (· != j) = ids.filter (· != j) ++ [k] := by simp [he]
      rw [hkeep, admits_concat, standing_concat, standing_concat, hstand]
      exact ⟨⟨hadm, hk⟩, rfl⟩

/-- An instruction that is no call turns into another that is none. -/
theorem calleeOf?_turned {i' : Instr} (hi : p.instrs[j]? = some i) (hc : i.opcode ≠ .call)
    (hc' : i'.opcode ≠ .call)
    (hinstr : ∀ k, q.instrs[k]? = if k = j then some i' else p.instrs[k]?) (k : Nat) :
    q.calleeOf? k = p.calleeOf? k := by
  rw [calleeOf?, calleeOf?, hinstr]
  split
  · rename_i hk
    rw [hk, hi]
    exact (Instr.callee?_eq_none hc').trans (Instr.callee?_eq_none hc).symm
  · rfl

/-- The others leave behind what all left behind before. -/
theorem standing_turned (h : p.Agrees C c none) (hi : p.instrs[j]? = some i)
    (hc : i.opcode ≠ .call) (hr : i.opcode ≠ .ret) (hq : ∀ k, q.calleeOf? k = p.calleeOf? k)
    (b : Nat) : q.standing C b ((p.ids b).filter (· != j)) = p.standing C b (p.ids b) := by
  rw [standing_congr rfl (fun k _ => hq k) fun _ _ _ => rfl]
  exact (admits_filter hi hc hr (h.certified b)).2

/-- An instruction that is neither a call nor a return may turn into another one at the end of the
current block. -/
theorem turn {i' : Instr} (h : p.Agrees C c none) (hi : p.instrs[j]? = some i)
    (hc : i.opcode ≠ .call) (hr : i.opcode ≠ .ret) (hc' : i'.opcode ≠ .call)
    (hi' : i'.Admitted C (p.standing C c (p.ids c)))
    (hinstr : ∀ k, q.instrs[k]? = if k = j then some i' else p.instrs[k]?)
    (hids : ∀ b, q.ids b = (p.ids b).filter (· != j) ++ if b = c then [j] else [])
    (hsize : q.blocks.size = p.blocks.size) (hconstants : q.constants = p.constants)
    (hanys : q.anys = p.anys) : q.Agrees C c none := by
  have hcallee := calleeOf?_turned hi hc hc' hinstr
  have hold (b : Nat) : q.Admits C b ((p.ids b).filter (· != j)) := by
    refine (admits_filter hi hc hr (h.certified b)).1.transfer rfl (fun k _ => hcallee k)
      (fun _ _ _ => rfl) fun k hk i'' hi'' => ⟨i'', ?_, fun _ ha => ha⟩
    rw [hinstr, if_neg (by simpa using (List.mem_filter.mp hk).2)] at hi''
    exact hi''
  have hstand := h.standing_turned hi hc hr hcallee
  have hj : q.calleeOf? j = none := by
    rw [hcallee, calleeOf?, hi]
    exact Instr.callee?_eq_none hc
  constructor
  · intro b
    rw [hids]
    split
    · rename_i hb
      rw [admits_concat, hstand, hb]
      refine ⟨hold c, fun i'' hi'' => ?_⟩
      rw [hinstr, if_pos rfl] at hi''
      cases hi''
      exact hi'
    · rw [List.append_nil]
      exact hold b
  · rw [hsize]
    exact h.entry_eq
  · intro k hk
    refine h.taken_eq k (Nat.not_lt.mp fun hlt => ?_)
    have hnone : q.instrs[k]? = none := by simp [hk]
    rw [hinstr, Array.getElem?_eq_getElem hlt] at hnone
    split at hnone <;> cases hnone
  · intro k i'' hk hcall _
    rw [hinstr] at hk
    split at hk
    · cases hk
      exact absurd hcall hc'
    · obtain ⟨r, ha, hroom⟩ := h.calls k i'' hk hcall (by simp)
      refine ⟨r, ha.of_constants fun _ _ hk => hconstants ▸ hk, ?_⟩
      rw [hanys]
      exact hroom
  · intro b _
    rw [hids]
    split
    · rw [standing_concat, advance_of_not_call hj]
    · rw [List.append_nil, hstand]
      exact h.settled b (Or.inr rfl)
  · rintro o ⟨⟩
  · intro b r k hk
    rw [hcallee]
    exact h.promised b r k hk

end Stores

end Agrees

end Proc

end ScriptC
