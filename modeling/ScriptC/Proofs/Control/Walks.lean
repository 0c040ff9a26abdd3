import ScriptC.Proofs.Blocks.Discipline
import ScriptC.Proofs.Control.Courses
import ScriptC.Proofs.Selections

/-! # Walks through procs

A walk executes the blocks of a proc as far as control is concerned. It takes the outcomes of its
tests from a list of answers, and it knows which generic temporaries hold which global.
-/

namespace ScriptC

/-- A walk before the instruction at `position` of `block`. -/
structure Walker where
  block : Nat
  position : Nat
  /-- The globals in the generic temporaries. -/
  held : Nat → Option String
  answers : List Bool

/-- The global that an instruction loads. -/
def Instr.global? (i : Instr) : Option String :=
  match i.opcode, i.operands with
  | .loadGlobal, .symbol (.globalVar name) :: _ => some name
  | _, _ => none

namespace Walker

/-- What the temporaries hold after an instruction that goes on to the next. -/
def heldAfter (w : Walker) (i : Instr) (r : Nat) : Option String :=
  if .tempAny r ∈ i.targets then i.global? else w.held r

def next (w : Walker) (held : Nat → Option String) : Walker :=
  { w with position := w.position + 1, held }

/-- Follow an instruction. A return has no successor, and neither has a test without an answer. A
call leaves nothing known about its callee or what lies above. -/
def follow (w : Walker) (i : Instr) : Option (Traced Action Walker) :=
  match i.opcode with
  | .ret => none
  | .br =>
    match i.targets with
    | [.block b] => some ({ w with block := b, position := 0 }, [])
    | _ => none
  | .cbr =>
    match i.operands, i.targets, w.answers with
    | [.symbol ref], [.block a, .block b], answer :: answers =>
      some (⟨if answer then a else b, 0, w.held, answers⟩, [.test ref.name])
    | _, _, _ => none
  | .call =>
    match i.operands with
    | .tempAny r :: args => do
      let callee ← w.held r
      return (w.next fun x => if x < r then w.held x else none, [.call callee args.length])
    | _ => none
  | _ => some (w.next (w.heldAfter i), [])

end Walker

namespace Proc

def walk (p : Proc) (w : Walker) : Option (Traced Action Walker) := do
  w.follow (← p.instrAt? w.block w.position)

/-- The opcode of the instruction a walk is at. -/
def opcodeAt? (p : Proc) (w : Walker) : Option Opcode :=
  (p.instrAt? w.block w.position).map (·.opcode)

end Proc

/-- Walks cannot tell the instructions apart: only the results of a call may differ. -/
structure Instr.Alike (i j : Instr) : Prop where
  opcode : j.opcode = i.opcode
  operands : j.operands = i.operands
  targets : i.opcode ≠ .call → j.targets = i.targets

theorem Instr.Alike.refl (i : Instr) : i.Alike i := ⟨rfl, rfl, fun _ => rfl⟩

theorem Instr.Alike.trans {i j k : Instr} (h : i.Alike j) (h' : j.Alike k) : i.Alike k where
  opcode := h'.opcode.trans h.opcode
  operands := h'.operands.trans h.operands
  targets hi := (h'.targets (h.opcode ▸ hi)).trans (h.targets hi)

theorem Walker.follow_alike {w : Walker} {i j : Instr} (h : i.Alike j) :
    w.follow j = w.follow i := by
  by_cases hc : i.opcode = .call
  · simp only [follow, h.opcode, h.operands, hc]
  · obtain ⟨ho, hops, ht⟩ := h
    have hheld : w.heldAfter j = w.heldAfter i := by
      funext r
      simp only [heldAfter, Instr.global?, ho, hops, ht hc]
    simp only [follow, hheld, ho, hops, ht hc]

theorem Walker.follow_straight {w : Walker} {i : Instr} (h : i.opcode.IsStraight) :
    w.follow i = some (w.next (w.heldAfter i), []) := by
  obtain ⟨ht, hc⟩ := h
  unfold follow
  split <;> simp_all [Opcode.isTerminator]

namespace Proc

/-- More code, in new blocks or at the end of those there were. -/
structure Grows (p q : Proc) : Prop where
  ids : ∀ b, p.ids b <+: q.ids b
  instrs : ∀ (i : Nat) (instr : Instr), p.instrs[i]? = some instr →
    ∃ instr', q.instrs[i]? = some instr' ∧ instr.Alike instr'

namespace Grows

variable {p q r : Proc} {w w' : Walker} {trace : List Action}

theorem of_eq (hb : q.blocks = p.blocks) (hi : q.instrs = p.instrs) : p.Grows q where
  ids b := by simp only [Proc.ids, hb]; exact List.prefix_rfl
  instrs i instr h := ⟨instr, by rwa [hi], .refl instr⟩

theorem refl (p : Proc) : p.Grows p := of_eq rfl rfl

theorem trans (h : p.Grows q) (h' : q.Grows r) : p.Grows r where
  ids b := (h.ids b).trans (h'.ids b)
  instrs i instr hi := by
    obtain ⟨x, hx, ha⟩ := h.instrs i instr hi
    obtain ⟨y, hy, ha'⟩ := h'.instrs i x hx
    exact ⟨y, hy, ha.trans ha'⟩

theorem instrAt? (h : p.Grows q) {b k : Nat} {i : Instr} (hi : p.instrAt? b k = some i) :
    ∃ j, q.instrAt? b k = some j ∧ i.Alike j := by
  obtain ⟨id, hid, hi⟩ := Option.bind_eq_some_iff.mp hi
  obtain ⟨later, hl⟩ := h.ids b
  obtain ⟨j, hj, ha⟩ := h.instrs id i hi
  have hlt := (List.getElem?_eq_some_iff.mp hid).1
  have hid' : (q.ids b)[k]? = some id := by
    rw [← hl, List.getElem?_append_left hlt, hid]
  exact ⟨j, Option.bind_eq_some_iff.mpr ⟨id, hid', hj⟩, ha⟩

theorem walk (h : p.Grows q) (hw : p.walk w = some (w', trace)) : q.walk w = some (w', trace) := by
  obtain ⟨i, hi, hf⟩ := Option.bind_eq_some_iff.mp hw
  obtain ⟨j, hj, ha⟩ := h.instrAt? hi
  exact Option.bind_eq_some_iff.mpr ⟨j, hj, by rw [Walker.follow_alike ha, hf]⟩

theorem reaches (h : p.Grows q) (hr : Reaches p.walk w trace w') : Reaches q.walk w trace w' :=
  hr.mono fun _ _ _ => h.walk

theorem appended {b : Nat} {i : Instr} (hb : b < p.blocks.size) : p.Grows (p.appended b i) where
  ids c := by
    rw [ids_appended hb]
    split <;> rename_i h
    · exact h ▸ List.prefix_append _ _
    · exact List.prefix_rfl
  instrs j instr hj := by
    have hlt := (Array.getElem?_eq_some_iff.mp hj).1
    refine ⟨instr, ?_, .refl instr⟩
    rw [Proc.appended, Array.getElem?_push_lt hlt, ← hj, Array.getElem?_eq_getElem hlt]

/-- How many results a call gives may be said later. -/
theorem modify {call : Nat} {f : List Operand → List Operand}
    (h : ∀ i, p.instrs[call]? = some i → i.opcode = .call) :
    p.Grows { p with instrs := p.instrs.modify call fun i => { i with targets := f i.targets } } where
  ids _ := List.prefix_rfl
  instrs j instr hj := by
    rw [Array.getElem?_modify, hj]
    split <;> rename_i hcall
    · exact ⟨_, rfl, rfl, rfl, fun hi => absurd (h instr (hcall ▸ hj)) hi⟩
    · exact ⟨instr, rfl, .refl instr⟩

theorem newBlock : p.Grows p.newBlock.1 where
  ids b := by simp
  instrs _ instr hi := ⟨instr, hi, .refl instr⟩

end Grows

/-- At position `k` of block `b` the variable `name` is tested. -/
def Tests (p : Proc) (b k : Nat) (name : String) (onTrue onFalse : Nat) : Prop :=
  ∃ ref i, ref.name = name ∧
    p.instrAt? b k = some ⟨.cbr, [.symbol ref], [.block onTrue, .block onFalse], i⟩

theorem Grows.tests {p q : Proc} {b k onTrue onFalse : Nat} {name : String} (h : p.Grows q)
    (ht : p.Tests b k name onTrue onFalse) : q.Tests b k name onTrue onFalse := by
  obtain ⟨ref, i, hn, hi⟩ := ht
  obtain ⟨⟨opcode, operands, targets, j⟩, hj, ho, hops, ht⟩ := h.instrAt? hi
  simp only at ho hops ht
  subst ho hops
  rw [ht (by simp)] at hj
  exact ⟨ref, j, hn, hj⟩

/-- From `w` the proc takes this course. What ends normally gets to a place in `next`, and a break to
one in `exit`. -/
def Takes (p : Proc) (next exit : Nat → Nat → Prop) (w : Walker) (c : Course) : Prop :=
  ∃ w', Reaches p.walk w c.actions w' ∧ w'.answers = c.rest ∧
    match c.ending with
    | .done => next w'.block w'.position
    | .left => exit w'.block w'.position
    | .returned => p.opcodeAt? w' = some .ret
    | .waiting => p.opcodeAt? w' = some .cbr ∧ c.rest = []

/-- The place at `k` in block `b`. -/
def Place (b k : Nat) (b' k' : Nat) : Prop := b' = b ∧ k' = k

namespace Takes

variable {p : Proc} {next mid exit : Nat → Nat → Prop} {w w' : Walker} {c : Course}
  {play : List Bool → Course} {trace : List Action}

theorem mono {next' exit' : Nat → Nat → Prop} (h : p.Takes next exit w c)
    (hn : ∀ b k, next b k → next' b k) (he : ∀ b k, exit b k → exit' b k) :
    p.Takes next' exit' w c := by
  obtain ⟨w', hr, ha, hend⟩ := h
  refine ⟨w', hr, ha, ?_⟩
  cases hc : c.ending with
  | done => exact hn _ _ (by simpa only [hc] using hend)
  | left => exact he _ _ (by simpa only [hc] using hend)
  | returned | waiting => simpa only [hc] using hend

theorem of_reaches (hr : Reaches p.walk w trace w') (h : p.Takes next exit w' c) :
    p.Takes next exit w { c with actions := trace ++ c.actions } := by
  obtain ⟨w₁, h₁, ha, he⟩ := h
  exact ⟨w₁, hr.trans h₁, ha, he⟩

theorem done (hr : Reaches p.walk w trace w') (hn : next w'.block w'.position) :
    p.Takes next exit w ⟨trace, .done, w'.answers⟩ :=
  ⟨w', hr, rfl, hn⟩

/-- What follows is a way to block `b`. -/
theorem join {b : Nat} (h : p.Takes mid exit w c) (hj : ∀ w : Walker, mid w.block w.position →
    Reaches p.walk w [] ⟨b, 0, w.held, w.answers⟩) : p.Takes (Place b 0) exit w c := by
  obtain ⟨w', hr, ha, he⟩ := h
  cases hc : c.ending with
  | done =>
    rw [hc] at he
    have hr' := hr.trans (hj w' he)
    rw [List.append_nil] at hr'
    refine ⟨_, hr', ha, ?_⟩
    rw [hc]
    exact ⟨rfl, rfl⟩
  | left | returned | waiting => exact ⟨w', hr, ha, by simpa only [hc] using he⟩

theorem andThen (h : p.Takes mid exit w c)
    (hn : ∀ w', mid w'.block w'.position → w'.answers = c.rest →
      p.Takes next exit w' (play c.rest)) :
    p.Takes next exit w (c.andThen play) := by
  obtain ⟨w', hr, ha, he⟩ := h
  unfold Course.andThen
  cases hc : c.ending with
  | done =>
    rw [hc] at he
    exact of_reaches hr (hn w' he ha)
  | left | returned | waiting => exact ⟨w', hr, ha, by simpa only [hc] using he⟩

/-- The end of a loop is where its breaks lead. -/
theorem closeLoop (h : p.Takes next next w c) : p.Takes next exit w c.closeLoop := by
  obtain ⟨w', hr, ha, he⟩ := h
  unfold Course.closeLoop
  cases hc : c.ending with
  | left => exact ⟨w', hr, ha, by simpa only [hc] using he⟩
  | done | returned | waiting => exact ⟨w', hr, ha, by simpa only [hc] using he⟩

/-- A test waits for an answer and goes on as that says. -/
theorem ask {name : String} {a b : Nat} {onTrue onFalse : List Bool → Course}
    (hi : p.Tests w.block w.position name a b)
    (ht : ∀ rest, w.answers = true :: rest → p.Takes next exit ⟨a, 0, w.held, rest⟩ (onTrue rest))
    (hf : ∀ rest, w.answers = false :: rest →
      p.Takes next exit ⟨b, 0, w.held, rest⟩ (onFalse rest)) :
    p.Takes next exit w (Course.ask name onTrue onFalse w.answers) := by
  obtain ⟨ref, i, rfl, hi⟩ := hi
  rcases hw : w.answers with _ | ⟨_ | _, rest⟩
  · exact ⟨w, .refl _ _, hw, by simp [opcodeAt?, hi], rfl⟩
  · have hstep : Reaches p.walk w [.test ref.name] ⟨b, 0, w.held, rest⟩ :=
      .of_step (by simp [walk, hi, Walker.follow, hw])
    exact of_reaches hstep (hf rest hw)
  · have hstep : Reaches p.walk w [.test ref.name] ⟨a, 0, w.held, rest⟩ :=
      .of_step (by simp [walk, hi, Walker.follow, hw])
    exact of_reaches hstep (ht rest hw)

end Takes

section Loops

variable {p : Proc} {play : List Bool → Course} {name : String} {body done : Nat}

theorem Tests.opcodeAt? {w : Walker} {a b : Nat} (h : p.Tests w.block w.position name a b) :
    p.opcodeAt? w = some .cbr := by
  obtain ⟨ref, i, -, hi⟩ := h
  simp [Proc.opcodeAt?, hi]

/-- The blocks of a loop that tests its condition first. -/
theorem takes_whileLoop {cond : Nat} (hs : Shrinks play)
    (hi : p.Tests cond 0 name body done)
    (hb : ∀ held answers, p.Takes (Place cond 0) (Place done 0) ⟨body, 0, held, answers⟩
      (play answers)) (n : Nat) (held : Nat → Option String) (answers : List Bool)
    (hn : answers.length ≤ n) :
    p.Takes (Place done 0) (Place done 0) ⟨cond, 0, held, answers⟩
      (Course.whileLoop name play n answers) := by
  induction n generalizing held answers with
  | zero =>
    obtain rfl : answers = [] := List.length_eq_zero_iff.mp (by omega)
    exact ⟨_, .refl _ _, rfl, hi.opcodeAt?, rfl⟩
  | succ n ih =>
    apply Takes.ask (w := ⟨cond, 0, held, answers⟩) hi
    · rintro rest rfl
      have hrest := hs rest
      refine (hb held rest).andThen ?_
      rintro ⟨b, k, held', _⟩ ⟨rfl, rfl⟩ rfl
      exact ih held' _ (by simp only [List.length_cons] at hn; omega)
    · intro rest _
      exact .done (.refl _ _) ⟨rfl, rfl⟩

/-- The blocks of a loop that tests its condition last. -/
theorem takes_repeatLoop {mid : Nat → Nat → Prop} (hs : Shrinks play)
    (hi : ∀ b k, mid b k → p.Tests b k name done body)
    (hb : ∀ held answers, p.Takes mid (Place done 0) ⟨body, 0, held, answers⟩ (play answers))
    (n : Nat) (held : Nat → Option String) (answers : List Bool) (hn : answers.length ≤ n) :
    p.Takes (Place done 0) (Place done 0) ⟨body, 0, held, answers⟩
      (Course.repeatLoop name play n answers) := by
  induction n generalizing held answers with
  | zero =>
    refine (hb held answers).andThen ?_
    rintro w hw ha
    have hrest : (play answers).rest = [] := by
      have := hs answers
      exact List.length_eq_zero_iff.mp (by omega)
    exact ⟨w, .refl _ _, ha, (hi _ _ hw).opcodeAt?, hrest⟩
  | succ n ih =>
    refine (hb held answers).andThen ?_
    rintro w hw ha
    have hrest := hs answers
    rw [← ha] at hrest ⊢
    apply Takes.ask (hi _ _ hw)
    · intro rest _
      exact .done (.refl _ _) ⟨rfl, rfl⟩
    · intro rest hr
      rw [hr] at hrest
      exact ih w.held rest (by simp only [List.length_cons] at hrest; omega)

end Loops

end Proc

end ScriptC
