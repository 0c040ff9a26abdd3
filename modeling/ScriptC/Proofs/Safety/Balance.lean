import ScriptC.Proofs.Safety.Trees

/-! # Balance of registers

Whatever is taken from a pool while a tree is lowered is returned. A statement leaves the live
temporaries as it found them, and a proc that is finished has none left, nor any local.
-/

namespace ScriptC

section Pools

namespace Registers

variable {p : Registers}

/-- The registers that are handed out. -/
def handedOut (p : Registers) : List Nat := (List.range p.next).filter (· ∉ p.free)

theorem mem_handedOut {r : Nat} : r ∈ p.handedOut ↔ p.IsLive r := by
  simp [handedOut, IsLive]

theorem nodup_handedOut : p.handedOut.Nodup := List.nodup_range.filter _

/-- A pool that has everything back counts no live register. -/
theorem WellFormed.live_eq_zero (h : p.WellFormed) (hp : ∀ r, ¬ p.IsLive r) : p.live = 0 := by
  have hperm : p.free.Perm (List.range p.next) := by
    rw [List.perm_ext_iff_of_nodup h.nodup List.nodup_range]
    intro r
    rw [List.mem_range]
    constructor
    · exact h.lt_next r
    · intro hr
      by_contra hfree
      exact hp r ⟨hr, hfree⟩
  rw [live, hperm.length_eq, List.length_range, Nat.sub_self]

theorem not_isLive_of_free_eq_range (h : p.free = List.range p.next) (r : Nat) : ¬ p.IsLive r := by
  rintro ⟨hr, hfree⟩
  rw [h, List.mem_range] at hfree
  exact hfree hr

end Registers

/-- What the pools of a proc have handed out can be listed. -/
theorem Proc.exists_holds {p : Proc} (h : ∀ kind, (p.pool kind).WellFormed) :
    ∃ held, p.Holds held := by
  let live (kind : TempKind) : List (TempKind × Nat) := (p.pool kind).handedOut.map (Prod.mk kind)
  have hlive {kind : TempKind} {t : TempKind × Nat} :
      t ∈ live kind ↔ t.1 = kind ∧ (p.pool kind).IsLive t.2 := by
    simp only [live, List.mem_map, Registers.mem_handedOut]
    constructor
    · rintro ⟨r, hr, rfl⟩
      exact ⟨rfl, hr⟩
    · rintro ⟨rfl, hr⟩
      exact ⟨t.2, hr, rfl⟩
  refine ⟨live .int ++ live .float ++ live .any, h, ?_, ?_, ?_⟩
  · have hnodup (kind : TempKind) : (live kind).Nodup :=
      List.pairwise_map.mpr (Registers.nodup_handedOut.imp fun hne he => hne (Prod.mk.inj he).2)
    have hne {k k' : TempKind} (hk : k ≠ k') : ∀ t ∈ live k, ∀ u ∈ live k', t ≠ u := by
      rintro t ht u hu rfl
      exact hk ((hlive.mp ht).1.symm.trans (hlive.mp hu).1)
    rw [List.nodup_append, List.nodup_append]
    refine ⟨⟨hnodup _, hnodup _, hne (by decide)⟩, hnodup _, ?_⟩
    intro t ht
    rcases List.mem_append.mp ht with ht | ht
    · exact hne (by decide) t ht
    · exact hne (by decide) t ht
  · intro t ht
    rw [List.mem_append, List.mem_append] at ht
    rcases ht with (ht | ht) | ht <;>
    · obtain ⟨he, hr⟩ := hlive.mp ht
      rw [Proc.IsLive, he]
      exact hr
  · intro kind r hr
    have hmem : (kind, r) ∈ live kind := hlive.mpr ⟨rfl, hr⟩
    cases kind <;> simp [hmem]

end Pools

namespace LoweringState

/-- The pools can be trusted, each local in scope has a register of its own, and the blocks and procs
that are named exist. -/
structure Orderly (s : LoweringState) : Prop where
  block_lt : s.fn.block < s.fn.proc.blocks.size
  instr_block : ∀ i ∈ s.fn.proc.instrs, i.block < s.fn.proc.blocks.size
  id_le : s.fn.proc.id ≤ s.module.procs.size
  pools : ∀ kind, (s.fn.proc.pool kind).WellFormed
  locals : s.fn.proc.locals.Holds (s.fn.scopes.flatten.map Prod.snd)

variable {s : LoweringState}

theorem Orderly.exists_sound (h : s.Orderly) : ∃ held, s.Sound 0 0 0 held := by
  obtain ⟨held, hheld⟩ := Proc.exists_holds h.pools
  exact ⟨held, Nat.zero_le _, Nat.zero_le _, Nat.zero_le _, h.block_lt, h.instr_block, h.id_le, hheld,
    h.locals⟩

theorem Sound.orderly {blocks code procs : Nat} {held : List (TempKind × Nat)}
    (h : s.Sound blocks code procs held) : s.Orderly :=
  ⟨h.block_lt, h.instr_block, h.id_le, h.temps.wellFormed, h.locals⟩

/-- The same temporaries are live in both states. -/
def SameLive (s s' : LoweringState) : Prop :=
  ∀ kind r, s'.fn.proc.IsLive kind r ↔ s.fn.proc.IsLive kind r

theorem Sound.sameLive {blocks code procs : Nat} {held : List (TempKind × Nat)} {s' : LoweringState}
    (h : s.Sound blocks code procs held) (h' : s'.Sound blocks code procs held) : s.SameLive s' := by
  intro kind r
  constructor
  · exact fun hr => h.temps.live _ (h'.temps.held_of_isLive kind r hr)
  · exact fun hr => h'.temps.live _ (h.temps.held_of_isLive kind r hr)

end LoweringState

/-- Nothing is live in the pools of the proc. -/
structure Proc.Returned (p : Proc) : Prop where
  liveTemps_eq : ∀ kind, p.liveTemps kind = 0
  temps : ∀ kind r, ¬ p.IsLive kind r
  live_locals_eq : p.locals.live = 0
  locals : ∀ r, ¬ p.locals.IsLive r

theorem Proc.Finished.returned {p : Proc} {symbols : SymbolTable} {f : Function}
    (h : p.Finished symbols f) : p.Returned := by
  have htemps (kind : TempKind) (r : Nat) : ¬ p.IsLive kind r := fun hr =>
    List.not_mem_nil (h.temps.held_of_isLive kind r hr)
  refine ⟨fun kind => (h.temps.wellFormed kind).live_eq_zero (htemps kind), htemps, ?_, ?_⟩
  · rw [Registers.live, h.locals_free, List.length_range]
    exact Nat.sub_self _
  · exact Registers.not_isLive_of_free_eq_range h.locals_free

namespace Tree

variable {t : Tree} {stats : Stats} {m : Module}

/-- Once a tree is lowered, every temporary and every local of every proc has been returned. Each
statement by itself leaves the temporaries that are live as it found them. -/
theorem lower_returns (h : (t.lower stats).2 = .ok m) :
    (∀ p ∈ m.procs, p.Returned) ∧
      ∀ (st : Stmt) (s s' : LoweringState), s.Orderly → Lower.ofStmt t.symbols st s = .ok () s' →
        s'.Orderly ∧ s.SameLive s' := by
  constructor
  · intro p hp
    obtain ⟨placements, hpop⟩ := populated_of_lower h
    obtain ⟨i, hi⟩ := Array.mem_iff_getElem?.mp hp
    obtain ⟨pl, hpl⟩ := hpop.assigned.placement? (Array.getElem?_eq_some_iff.mp hi).1
    exact (hpop.finished i p pl hi hpl).returned
  · intro st s s' hs hrun
    obtain ⟨held, hsound⟩ := hs.exists_sound
    have hsound' := (Lower.leads_ofStmt t.symbols st s hsound).of_ok hrun
    exact ⟨hsound'.orderly, hsound.sameLive hsound'⟩

/-- A loop that assigns to a local and to an element. -/
def exchangeLoop : Stmt :=
  .numericFor 2 ⟨.any, .symbol 0⟩ ⟨.integer, .integer 10⟩ none
    [.assign [⟨.any, .symbol 0⟩, ⟨.any, .index ⟨.table, .symbol 1⟩ ⟨.any, .symbol 2⟩⟩]
      [⟨.table, .symbol 1⟩, ⟨.any, .methodCall ⟨.any, .symbol 4⟩ "m" [⟨.any, .symbol 2⟩]⟩]]

/-- The loop between a call of which two results are taken and one that passes on all results. -/
def exchange : Tree where
  symbols := ⟨#[⟨"a", .any, .localOf 0⟩, ⟨"b", .table, .localOf 0⟩, ⟨"i", .any, .localOf 0⟩,
    ⟨"f", .any, .global⟩, ⟨"o", .any, .global⟩]⟩
  main :=
    { id := 0, name := none, params := [], isVararg := false, upvalues := []
      body := [.declare [0, 1] [⟨.any, .call ⟨.any, .symbol 3⟩ []⟩], exchangeLoop,
        .ret [⟨.any, .call ⟨.any, .symbol 3⟩
          [⟨.any, .symbol 0⟩, ⟨.any, .call ⟨.any, .symbol 3⟩ []⟩]⟩]] }

/-- A function with two locals in scope and the second generic temporary held. -/
def midway : LoweringState where
  stats := {}
  module := {}
  fn :=
    { proc := { id := 0, parent := none, locals := ⟨2, []⟩, anys := ⟨2, [0]⟩ }
      function := 0
      scopes := [[(1, 1), (0, 0)]] }

theorem orderly_midway : midway.Orderly where
  block_lt := by decide
  instr_block := nofun
  id_le := by decide
  pools kind := by cases kind <;> exact ⟨by decide, by decide⟩
  locals := ⟨⟨by decide, by decide⟩, by decide, by simp [midway, Registers.IsLive]⟩

theorem exchange_returns : (∃ m, (exchange.lower {}).2 = .ok m ∧ ∀ p ∈ m.procs, p.Returned) ∧
    midway.Orderly ∧ ∃ s', Lower.ofStmt exchange.symbols exchangeLoop midway = .ok () s' ∧
      midway.SameLive s' := by
  have hok : (exchange.lower {}).2.toOption.isSome = true := by decide +kernel
  have hrun : (match Lower.ofStmt exchange.symbols exchangeLoop midway with
      | .ok _ _ => true
      | .error _ _ => false) = true := by decide +kernel
  cases hm : (exchange.lower {}).2 with
  | error e => simp [hm, Except.toOption] at hok
  | ok m =>
    obtain ⟨hprocs, hstmt⟩ := lower_returns hm
    refine ⟨⟨m, rfl, hprocs⟩, orderly_midway, ?_⟩
    cases hs : Lower.ofStmt exchange.symbols exchangeLoop midway with
    | error e s' => simp [hs] at hrun
    | ok _ s' => exact ⟨s', rfl, (hstmt exchangeLoop midway s' orderly_midway hs).2⟩

end Tree

end ScriptC
