import ScriptC.Proofs.Blocks.Trees
import ScriptC.Proofs.Dominance.Paths
import ScriptC.Proofs.Jumps.Instructions
import ScriptC.Proofs.Mirror.Units

/-! # Control flow of generated functions

The jumps in the C function of a proc follow the control-flow graph that is attached to the proc. Every
label is defined once, every jump goes to a label of the function, and no block falls through into the
next. The jumps that leave a block are the edges that leave it in the graph, except that a branch on a
value whose truth is known goes to one side only.
-/

namespace ScriptC

open CodeContext (bind_eq_ok mapM_eq_ok)

section Edges

variable {p : Proc} {b x : Nat}

theorem Graph.mem_succs_foldl {edges : List (Nat × Nat)} {g : Graph} {n : Nat} :
    x ∈ (edges.foldl (fun g (a, b) => (g.addEdge a b).1) g).succs n ↔
      x ∈ g.succs n ∨ (n, x) ∈ edges := by
  induction edges generalizing g with
  | nil => simp
  | cons e edges ih =>
    rw [List.foldl_cons, ih, mem_succs_addEdge, List.mem_cons, or_assoc, Prod.ext_iff]

/-- The successors of a block, where it has any. -/
def Proc.successorsOf (p : Proc) (b : Nat) : List Nat := (p.successors b).toOption.getD []

theorem Proc.mem_transfers {edges : List (Nat × Nat)} (h : p.transfers = .ok edges) :
    (b, x) ∈ edges ↔ (b < p.blocks.size ∧ b ≠ exitBlock) ∧ x ∈ p.successorsOf b := by
  obtain ⟨parts, hparts, h⟩ := bind_eq_ok h
  cases h
  obtain ⟨rfl, -⟩ := mapM_eq_ok (g := fun b => (p.successorsOf b).map fun t => (b, t)) hparts <| by
    intro b _ part hpart
    obtain ⟨ts, hts, hpart⟩ := bind_eq_ok hpart
    cases hpart
    rw [successorsOf, hts]
    rfl
  simp only [List.mem_flatten, List.mem_map, List.mem_filter, List.mem_range, bne_iff_ne]
  constructor
  · rintro ⟨_, ⟨a, ha, rfl⟩, hx⟩
    obtain ⟨t, ht, he⟩ := List.mem_map.mp hx
    cases he
    exact ⟨ha, ht⟩
  · rintro ⟨hb, hx⟩
    exact ⟨_, ⟨b, hb, rfl⟩, List.mem_map_of_mem hx⟩

/-- The edges that leave a block are given by its last instruction. -/
theorem Proc.mem_succs_of_analyse {flow : Flow} (h : p.analyse = .ok flow) (hb : b < p.blocks.size)
    (he : b ≠ exitBlock) : x ∈ flow.graph.succs b ↔ x ∈ p.successorsOf b := by
  obtain ⟨graph, hgraph, h⟩ := bind_eq_ok h
  cases h
  obtain ⟨edges, hedges, h⟩ := bind_eq_ok hgraph
  cases h
  have hstart : ((Graph.new entryBlock).addNode (p.blocks.size - 1)).succs b = [] := by
    rw [Graph.succs, Graph.edges, Graph.node_addNode, Graph.new, Graph.node_addNode]
    simp [Graph.node]
  rw [Graph.succs_classify, Graph.mem_succs_foldl, mem_transfers hedges, hstart]
  simp [hb, he]

end Edges

section Attachment

/-- The proc with this number has its control flow attached. -/
def Module.IsAnalysed (m : Module) (i : Nat) : Prop :=
  ∃ p flow, m.procs[i]? = some p ∧ p.flow = some flow ∧ p.analyse = .ok flow

variable {m m' : Module} {stats stats' : Stats}

/-- Attaching control flow to a proc keeps what is attached to the others. -/
theorem Module.IsAnalysed.attach {i id : Nat} {p : Proc} {flow : Flow} (hp : m.procs[id]? = some p)
    (hflow : p.analyse = .ok flow) (h : i = id ∨ m.IsAnalysed i) :
    Module.IsAnalysed ⟨m.procs.modify id fun p => { p with flow := some flow }⟩ i := by
  by_cases hi : id = i
  · subst hi
    refine ⟨{ p with flow := some flow }, flow, ?_, rfl, hflow⟩
    rw [Array.getElem?_modify, if_pos rfl, hp, Option.map_some]
  · obtain ⟨q, flow', hq, hattached, hanalysed⟩ := h.resolve_left (Ne.symm hi)
    refine ⟨q, flow', ?_, hattached, hanalysed⟩
    rw [Array.getElem?_modify, if_neg hi, hq]

theorem Module.isAnalysed_of_analyseAll {ids : List Nat}
    (h : m.analyseAll stats ids = ((m', stats'), .ok ())) {i : Nat} (hi : i ∈ ids ∨ m.IsAnalysed i) :
    m'.IsAnalysed i := by
  induction ids generalizing m stats with
  | nil =>
    cases h
    exact hi.resolve_left List.not_mem_nil
  | cons id ids ih =>
    unfold analyseAll at h
    split at h
    · cases h
    · rename_i p hp
      split at h
      · cases h
      · rename_i flow hflow
        apply ih h
        rcases hi with hi | hi
        · rcases List.mem_cons.mp hi with rfl | hi
          · exact .inr (.attach hp hflow (.inl rfl))
          · exact .inl hi
        · exact .inr (.attach hp hflow (.inr hi))

/-- Every proc of an analysed tree is in order and has its control flow attached. -/
theorem Tree.exists_flow {t : Tree} (h : (t.analyse stats).2 = .ok m) {i : Nat} {p : Proc}
    (hp : m.procs[i]? = some p) :
    p.BlockDiscipline ∧ ∃ flow, p.flow = some flow ∧ p.analyse = .ok flow := by
  unfold analyse at h
  rcases hl : t.lower stats with ⟨stats', e | n⟩
  · simp [hl] at h
  obtain ⟨placements, hpop⟩ := populated_of_lower (congrArg Prod.snd hl)
  have hroot : n.root? = some 0 := by
    rw [Module.root?, if_neg]
    simpa [Array.isEmpty_iff_size_eq_zero] using Nat.ne_of_gt hpop.size_pos
  have hdiscipline : ∀ p ∈ n.procs, p.BlockDiscipline := by
    intro p hp
    obtain ⟨i, hi⟩ := Array.mem_iff_getElem?.mp hp
    exact (lower_finished (congrArg Prod.snd hl) i p hi).2
  simp only [hl, hroot, Module.analyse, hpop.numbered.preorder_eq_range hpop.size_pos] at h
  obtain ⟨hall, hsize⟩ := Module.analyseAll_induction
    (M := fun m => (∀ p ∈ m.procs, p.BlockDiscipline) ∧ m.procs.size = n.procs.size)
    (fun _ id flow hm => ⟨Module.forall_mem_modify (fun _ hp => hp.withFlow flow) hm.1 id,
      by simpa using hm.2⟩) ⟨hdiscipline, rfl⟩ stats' (List.range n.procs.size)
  split at h
  · rename_i hrun
    cases h
    rw [hrun] at hall hsize
    refine ⟨hall p (Array.mem_of_getElem? hp), ?_⟩
    have hi : i < n.procs.size := hsize ▸ (Array.getElem?_eq_some_iff.mp hp).1
    obtain ⟨q, flow, hq, hflow⟩ :=
      Module.isAnalysed_of_analyseAll hrun (.inl (List.mem_range.mpr hi))
    cases hp.symm.trans hq
    exact ⟨flow, hflow⟩
  · cases h

end Attachment

section Places

theorem Place.label_injective : Function.Injective label := by
  have hblock (b : Nat) : (Place.block b).label.toList = 'L' :: Nat.toDigits 10 b := by
    change ("L" ++ b.repr).toList = _
    rw [String.toList_append, Nat.toList_repr]
    rfl
  -- the name of the place that raises errors goes on with a letter
  have hne (b : Nat) : (Place.block b).label ≠ Place.failure.label := by
    intro he
    have hdigits : Nat.toDigits 10 b = "raise_error".toList := by
      have := congrArg String.toList he
      rw [hblock] at this
      exact (List.cons.inj this).2
    have hr : 'r' ∈ Nat.toDigits 10 b := by
      rw [hdigits]
      decide
    cases Nat.isDigit_of_mem_toDigits (by decide) (by decide) hr
  intro x y h
  cases x with
  | block b =>
    cases y with
    | block b' =>
      have hdigits := congrArg String.toList h
      rw [hblock, hblock, List.cons.injEq] at hdigits
      have hread := congrArg (Nat.ofDigitChars 10 · 0) hdigits.2
      simp only [Nat.ofDigitChars_ten_toDigits] at hread
      rw [hread]
    | failure => exact absurd h (hne b)
  | failure =>
    cases y with
    | block b => exact absurd h.symm (hne b)
    | failure => rfl

/-- The blocks that code jumps to. -/
def Code.exits (code : List Code) : List Place := (jumpsOf code).filter (· != .failure)

theorem Code.exits_append {cs : List Code} (h : ∀ c ∈ cs, c.Stays) (ds : List Code) :
    exits (cs ++ ds) = exits ds := by
  have hnone : (jumpsOf cs).filter (· != .failure) = [] := by
    rw [List.filter_eq_nil_iff, jumpsOf_eq]
    intro j hj
    obtain ⟨c, hc, hj⟩ := List.mem_flatMap.mp hj
    simp [h c hc j hj]
  rw [exits, jumpsOf_eq, List.flatMap_append, ← jumpsOf_eq, ← jumpsOf_eq, List.filter_append, hnone,
    List.nil_append, exits]

theorem Code.exits_scope (body : List Code) : exits [.scope body] = exits body := by
  rw [exits, jumpsOf, jumpsOf, List.append_nil, jumps, exits]

/-- The jumps that the text of code shows, without those that raise errors. -/
theorem Code.filter_gotos (code : List Code) :
    (Text.gotos (Code.texts 1 code)).filter (· != Place.failure.label) =
      (exits code).map Place.label := by
  rw [(Code.shows_texts 1 code).gotos_eq, List.filter_map, exits]
  congr 1
  apply List.filter_congr
  intro j _
  rw [Bool.eq_iff_iff]
  simp [Place.label_injective.eq_iff]

end Places

section Blocks

/-- The condition on which a block ends, if it ends in a branch. -/
def Proc.condition? (p : Proc) (b : Nat) : Option Operand :=
  match p.lastInstr? b with
  | some i => if i.opcode = .cbr then i.operands[0]? else none
  | none => none

variable {c : CodeContext} {b : Nat}

/-- The code of a block ends in a transfer, and leaves the block as its last instruction does: to all
successors, or to the side of a branch that is known to be taken. -/
theorem CodeContext.exits_block (h : c.proc.BlockDiscipline) (hb : b < c.proc.blocks.size)
    (he : b ≠ exitBlock) (hcode : ∀ i ∈ c.proc.blockInstrs b, c.instr i = .ok (c.codeOf i)) :
    ∃ front last, Code.Transfers last ∧
      ((c.proc.blockInstrs b).flatMap fun i => .comment i.opcode :: c.codeOf i) = front ++ [last] ∧
      (∀ x ∈ c.proc.successorsOf b, x < c.proc.blocks.size) ∧
      match (c.proc.condition? b).bind c.proc.truth? with
      | none => Code.exits (front ++ [last]) = (c.proc.successorsOf b).map .block
      | some v => ∃ i t f, c.proc.lastInstr? b = some i ∧ i.targets = [.block t, .block f] ∧
          c.proc.successorsOf b = [t, f] ∧
          Code.exits (front ++ [last]) = [.block (if v then t else f)] := by
  obtain ⟨start, last, hinstrs, hterm, hstart⟩ := h.ends b hb he
  have hlast : c.proc.lastInstr? b = some last := by
    rw [Proc.lastInstr?_eq (h.ids_lt b), hinstrs, List.getLast?_concat]
  have hmem : last ∈ c.proc.instrs :=
    Proc.mem_of_mem_blockInstrs (b := b) (by simp [hinstrs])
  have htargets := h.targets last hmem
  have hinstr : c.instr last = .ok (c.codeOf last) := hcode last (by simp [hinstrs])
  generalize hfront : (start.flatMap fun i => .comment i.opcode :: c.codeOf i) ++
    [.comment last.opcode] = front
  have hcomment (opcode : Opcode) : (Code.comment opcode).Stays := List.forall_mem_nil _
  have hstay : ∀ st ∈ front, st.Stays := by
    rw [← hfront]
    refine List.forall_mem_append.mpr ⟨fun st hst => ?_, List.forall_mem_singleton.mpr (hcomment _)⟩
    obtain ⟨i, hi, hst⟩ := List.mem_flatMap.mp hst
    rcases List.mem_cons.mp hst with rfl | hst
    · exact hcomment _
    · exact stays_instr (hstart i hi) _ (hcode i (by simp [hinstrs, hi])) st hst
  have hblock {st : Code} (hst : c.codeOf last = [st]) : ((c.proc.blockInstrs b).flatMap fun i =>
      .comment i.opcode :: c.codeOf i) = front ++ [st] := by
    rw [hinstrs, List.flatMap_append, List.flatMap_singleton, hst, ← hfront, List.append_assoc,
      List.singleton_append]
  have hcond : c.proc.condition? b = if last.opcode = .cbr then last.operands[0]? else none := by
    rw [Proc.condition?, hlast]
  unfold Instr.TargetsWithin at htargets
  split at htargets
  · rename_i ho
    obtain ⟨t, ht, htargets⟩ := htargets
    obtain ⟨t', ht', hst⟩ := yields_br ho _ hinstr
    rw [htargets] at ht'
    cases ht'
    have hsuccs : c.proc.successorsOf b = [t] := by
      simp [Proc.successorsOf, Proc.successors, hlast, ho, htargets, Operand.block?, Except.toOption]
    refine ⟨front, _, .goto t, hblock hst, by simpa [hsuccs] using ht, ?_⟩
    rw [hcond, ho, hsuccs]
    exact Code.exits_append hstay [.goto t]
  · rename_i ho
    obtain ⟨t, ht, f, hf, htargets⟩ := htargets
    obtain ⟨cond, t', f', hop, ht', hf', hst⟩ := yields_cbr ho _ hinstr
    rw [htargets] at ht' hf'
    cases ht'
    cases hf'
    have hsuccs : c.proc.successorsOf b = [t, f] := by
      simp [Proc.successorsOf, Proc.successors, hlast, ho, htargets, Operand.block?, Except.toOption]
    rw [hcond, if_pos ho, hop, Option.bind_some]
    cases htruth : c.proc.truth? cond with
    | none =>
      rw [htruth] at hst
      obtain ⟨a, hst⟩ := hst
      refine ⟨front, _, .branch a t f, hblock hst, by simp [hsuccs, ht, hf], ?_⟩
      rw [hsuccs]
      exact Code.exits_append hstay [.branch a t f]
    | some v =>
      rw [htruth] at hst
      exact ⟨front, _, .goto _, hblock hst, by simp [hsuccs, ht, hf], last, t, f, hlast, htargets,
        hsuccs, Code.exits_append hstay [.goto (if v then t else f)]⟩
  · rename_i ho
    obtain ⟨body, hbody, hst⟩ := yields_ret ho _ hinstr
    have hsuccs : c.proc.successorsOf b = [exitBlock] := by
      simp [Proc.successorsOf, Proc.successors, hlast, ho, Except.toOption]
    refine ⟨front, _, .scope body (.goto exitBlock), hblock hst, by simpa [hsuccs] using h.exit_lt, ?_⟩
    rw [hcond, ho, hsuccs]
    rw [Code.exits_append hstay, Code.exits_scope]
    exact Code.exits_append hbody [.goto exitBlock]
  · rename_i hbr hcbr hret
    unfold Opcode.isTerminator at hterm
    split at hterm
    · exact absurd ‹_› hret
    · exact absurd ‹_› hbr
    · exact absurd ‹_› hcbr
    · cases hterm

theorem Code.texts_append (depth : Nat) (cs ds : List Code) :
    texts depth (cs ++ ds) = texts depth cs ++ texts depth ds := by
  induction cs with
  | nil => simp [texts]
  | cons c cs ih => rw [List.cons_append, texts, ih, texts, String.append_assoc]

/-- The text of a block ends in a transfer that control cannot run past. The block is left, but for
errors, along edges of the graph. All edges are taken if the truth of no condition is known, and
otherwise only that to the side of the branch that is selected. -/
structure CodeUnit.BlockFollows (p : Proc) (g : Graph) (b : Nat) (text : String) : Prop where
  transfers : ∃ front last, Code.Transfers last ∧ text = front ++ last.text 1
  within : ∀ name ∈ Text.gotos text, name = "Lraise_error" ∨ ∃ s ∈ g.succs b, name = blockLabel s
  all : (p.condition? b).bind p.truth? = none → ∀ s ∈ g.succs b, blockLabel s ∈ Text.gotos text
  selected : ∀ v, (p.condition? b).bind p.truth? = some v → ∃ i t f, p.lastInstr? b = some i ∧
    i.targets = [.block t, .block f] ∧
    (Text.gotos text).filter (· != "Lraise_error") = [blockLabel (if v then t else f)]

/-- The function of a proc has a label for each block and for its two exits, jumps to these labels only,
and follows the graph. -/
structure CodeUnit.Follows (unit : CodeUnit) (p : Proc) (g : Graph) : Prop where
  blocks : unit.blocks.map Prod.fst = (List.range p.blocks.size).filter (· != exitBlock)
  labels : ∃ opening body, unit.text = Host.definition unit.name ++ body ∧
    body = opening ++ String.join (unit.blocks.map fun (b, code) => blockText b code) ++ epilogue ∧
    Text.labels body = unit.blocks.map (blockLabel ·.1) ++ [blockLabel exitBlock, "Lraise_error"] ∧
    (Text.labels body).Nodup ∧ ∀ name ∈ Text.gotos body, name ∈ Text.labels body
  flows : ∀ b code, (b, code) ∈ unit.blocks → BlockFollows p g b (Code.texts 1 code)

/-- Wherever the code of a block jumps to, it raises an error or goes on at a successor. -/
theorem CodeContext.mem_jumpsOf_block (h : c.proc.BlockDiscipline) (hb : b < c.proc.blocks.size)
    (he : b ≠ exitBlock) (hcode : ∀ i ∈ c.proc.blockInstrs b, c.instr i = .ok (c.codeOf i))
    {j : Place} (hj : j ∈ Code.jumpsOf ((c.proc.blockInstrs b).flatMap fun i =>
      .comment i.opcode :: c.codeOf i)) :
    j = .failure ∨ ∃ x ∈ c.proc.successorsOf b, x < c.proc.blocks.size ∧ j = .block x := by
  obtain ⟨front, last, -, hshape, hlt, hexits⟩ := exits_block h hb he hcode
  by_cases hfailure : j = .failure
  · exact .inl hfailure
  · rw [hshape] at hj
    have hexit : j ∈ Code.exits (front ++ [last]) := List.mem_filter.mpr ⟨hj, by simpa using hfailure⟩
    right
    split at hexits
    · rw [hexits] at hexit
      obtain ⟨x, hx, rfl⟩ := List.mem_map.mp hexit
      exact ⟨x, hx, hlt x hx, rfl⟩
    · rename_i v _
      obtain ⟨i, t, f, -, -, hsuccs, hexits⟩ := hexits
      rw [hexits, List.mem_singleton] at hexit
      have hx : (if v then t else f) ∈ c.proc.successorsOf b := by
        rw [hsuccs]
        split <;> simp
      exact ⟨_, hx, hlt _ hx, hexit⟩

theorem CodeContext.blockFollows (h : c.proc.BlockDiscipline) {flow : Flow}
    (hflow : c.proc.analyse = .ok flow) (hb : b < c.proc.blocks.size) (he : b ≠ exitBlock)
    (hcode : ∀ i ∈ c.proc.blockInstrs b, c.instr i = .ok (c.codeOf i)) :
    CodeUnit.BlockFollows c.proc flow.graph b
      (Code.texts 1 ((c.proc.blockInstrs b).flatMap fun i => .comment i.opcode :: c.codeOf i)) := by
  have hsucc {x : Nat} : x ∈ flow.graph.succs b ↔ x ∈ c.proc.successorsOf b :=
    Proc.mem_succs_of_analyse hflow hb he
  obtain ⟨front, last, htransfers, hshape, -, hexits⟩ := exits_block h hb he hcode
  have hgotos := fun (j : Place) => mem_jumpsOf_block h hb he hcode (j := j)
  rw [hshape] at hgotos ⊢
  have hfilter := Code.filter_gotos (front ++ [last])
  constructor
  · refine ⟨Code.texts 1 front, last, htransfers, ?_⟩
    rw [Code.texts_append, Code.texts, Code.texts, String.append_empty]
  · intro name hname
    rw [(Code.shows_texts 1 _).gotos_eq] at hname
    obtain ⟨j, hj, rfl⟩ := List.mem_map.mp hname
    rcases hgotos j hj with rfl | ⟨x, hx, -, rfl⟩
    · exact .inl rfl
    · exact .inr ⟨x, hsucc.mpr hx, rfl⟩
  · intro hnone x hx
    rw [hnone] at hexits
    have hmem : blockLabel x ∈ (Code.exits (front ++ [last])).map Place.label := by
      rw [hexits, List.map_map]
      exact List.mem_map.mpr ⟨x, hsucc.mp hx, rfl⟩
    rw [← hfilter] at hmem
    exact (List.mem_filter.mp hmem).1
  · intro v hv
    rw [hv] at hexits
    obtain ⟨i, t, f, hlast, htargets, -, hexits⟩ := hexits
    refine ⟨i, t, f, hlast, htargets, ?_⟩
    rw [hexits] at hfilter
    exact hfilter

/-- The places of a function that have labels. -/
def CodeContext.places (c : CodeContext) : List Place :=
  c.liveBlocks.map .block ++ [.block exitBlock, .failure]

theorem CodeContext.nodup_places (c : CodeContext) : c.places.Nodup := by
  have hlive : c.liveBlocks.Nodup := List.nodup_range.filter _
  have hexit : exitBlock ∉ c.liveBlocks := fun h => (mem_liveBlocks.mp h).2 rfl
  have hblocks : (c.liveBlocks.map Place.block).Nodup :=
    hlive.map fun _ _ h => Place.block.inj h
  refine List.nodup_append.mpr ⟨hblocks, by decide, ?_⟩
  intro x hx y hy
  obtain ⟨b, hb, rfl⟩ := List.mem_map.mp hx
  rintro rfl
  simp only [List.mem_cons, Place.block.injEq, reduceCtorEq, List.not_mem_nil, or_false] at hy
  exact hexit (hy ▸ hb)

theorem CodeContext.mem_places {x : Nat} (hx : x < c.proc.blocks.size) : .block x ∈ c.places := by
  by_cases he : x = exitBlock
  · simp [places, he]
  · exact List.mem_append_left _ (List.mem_map_of_mem (mem_liveBlocks.mpr ⟨hx, he⟩))

/-- The function of a proc in order follows the graph of the proc. -/
theorem CodeContext.follows {name : String} {unit : CodeUnit} (h : c.proc.BlockDiscipline)
    {flow : Flow} (hflow : c.proc.analyse = .ok flow) (hunit : c.unit name = .ok unit) :
    unit.Follows c.proc flow.graph := by
  obtain ⟨hshape, hok⟩ := unit_eq hunit
  have hblocks : unit.blocks = c.liveBlocks.map fun b =>
      (b, (c.proc.blockInstrs b).flatMap fun i => .comment i.opcode :: c.codeOf i) := by
    rw [hshape]
  constructor
  · rw [hblocks, List.map_map]
    exact List.map_id _
  · obtain ⟨opening, htext, hopening⟩ := unit.exists_text_eq_append
    have hshows := (hopening.append (CodeUnit.shows_blocks unit.blocks)).append
      CodeUnit.shows_epilogue
    have hplaces : [] ++ unit.blocks.map (fun (b, _) => .block b) ++
        [.block exitBlock, .failure] = c.places := by
      rw [hblocks, List.map_map]
      rfl
    rw [hplaces] at hshows
    refine ⟨opening, _, htext, rfl, ?_, ?_, ?_⟩
    · rw [hshows.labels_eq, ← hplaces]
      simp only [List.nil_append, List.map_append, List.map_map]
      rfl
    · rw [hshows.labels_eq]
      exact c.nodup_places.map Place.label_injective
    · intro name hname
      rw [hshows.gotos_eq, List.nil_append, List.append_nil] at hname
      rw [hshows.labels_eq]
      obtain ⟨j, hj, rfl⟩ := List.mem_map.mp hname
      apply List.mem_map_of_mem
      obtain ⟨_, hblock, hj⟩ := List.mem_flatMap.mp hj
      rw [hblocks] at hblock
      obtain ⟨b, hb, rfl⟩ := List.mem_map.mp hblock
      obtain ⟨hlt, hne⟩ := mem_liveBlocks.mp hb
      rcases mem_jumpsOf_block h hlt hne (hok b hb) hj with rfl | ⟨x, -, hx, rfl⟩
      · simp [places]
      · exact mem_places hx
  · intro b code hmem
    rw [hblocks] at hmem
    obtain ⟨b, hb, he⟩ := List.mem_map.mp hmem
    cases he
    obtain ⟨hlt, hne⟩ := mem_liveBlocks.mp hb
    exact blockFollows h hflow hlt hne (hok b hb)

end Blocks

/-- The C of a unit is made of the functions of its procs, and each follows the graph that is attached
to its proc. -/
def CompiledUnit.FollowsGraphs (u : CompiledUnit) (options : Options) : Prop :=
  ∃ units : List CodeUnit, units.length = u.module.procs.size ∧
    u.unit.source = options.heading ++ String.join (units.map fun unit => unit.text ++ "\n") ∧
    ∀ (i : Nat) p, u.module.procs[i]? = some p → ∃ unit flow, units[i]? = some unit ∧
      unit.name = options.functionName i ∧ p.flow = some flow ∧ unit.Follows p flow.graph

namespace Tree

variable {t : Tree} {options : Options} {host : Host} {root : Nat} {stats : Stats} {u : CompiledUnit}

/-- The control flow of the generated C is that of the procs. -/
theorem compile_followsGraphs (h : (t.compile options host root stats).result = .ok u) :
    u.FollowsGraphs options := by
  obtain ⟨placements, ws, A, hpop, hlength, hprogress, -⟩ := progress_of_compile h
  obtain ⟨_, _, _, ha, -⟩ := exists_of_compile h
  refine ⟨ws.map (·.unit), by rw [List.length_map, hlength], ?_, ?_⟩
  · rw [hprogress.source_eq, List.map_map]
    rfl
  · intro i p hp
    obtain ⟨hdiscipline, flow, hflow, hanalyse⟩ := exists_flow (congrArg Prod.snd ha) hp
    have hlt : i < ws.length := hlength ▸ (Array.getElem?_eq_some_iff.mp hp).1
    have hw : ws[i]? = some ws[i] := List.getElem?_eq_getElem hlt
    obtain ⟨p', hp', -, -, hprod⟩ := hprogress.produces i _ hw
    cases hp.symm.trans hp'
    have hfollows : ws[i].unit.Follows p flow.graph := CodeContext.follows
      (c := ⟨p, u.module.children p.id, ws[i].function.frame, ws[i].places⟩) hdiscipline hanalyse
      hprod.unit_eq
    refine ⟨ws[i].unit, flow, ?_, ?_, hflow, hfollows⟩
    · rw [List.getElem?_map, hw, Option.map_some]
    · rw [(CodeContext.unit_eq hprod.unit_eq).1, hpop.numbered.ids i p hp]

/-- A loop that is left only from within: its own condition is a literal, that of its body a global. -/
def polling : Tree where
  symbols := ⟨#[⟨"g", .any, .global⟩]⟩
  main :=
    { id := 0, name := none, params := [], isVararg := false, upvalues := []
      body := [.whileLoop ⟨.boolean, .true⟩
        [.branch [⟨⟨.any, .symbol 0⟩, [.ret []]⟩] none]] }

theorem polling_followsGraphs : ∃ u, (polling.compile {} {} Host.root {}).result = .ok u ∧
    u.FollowsGraphs {} ∧ ∃ p, u.module.procs[0]? = some p ∧
      ((List.range p.blocks.size).filterMap p.condition?).map p.truth? = [some true, none] := by
  obtain ⟨m, unit, hm, hu⟩ := exists_compile (t := polling) (by decide +kernel)
  have hconditions : (match (polling.analyse {}).2 with
      | .ok m => m.procs[0]?.map fun p =>
        ((List.range p.blocks.size).filterMap p.condition?).map p.truth?
      | .error _ => none) = some [some true, none] := by decide +kernel
  simp only [hm, Option.map_eq_some_iff] at hconditions
  exact ⟨_, hu, compile_followsGraphs hu, hconditions⟩

end Tree

end ScriptC
