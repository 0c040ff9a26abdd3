import ScriptC.Proofs.Regularity.Trees

/-! # Safety of trees

Lowering a tree breaks no contract of the registers, the blocks and the instructions, unless the
results of a call are claimed in a numeric loop that holds a register above the callee.
-/

namespace ScriptC

/-- A function with this body, of which only what is held is watched. -/
def Locale.unwatched (symbols : SymbolTable) (body : List Stmt) : Locale :=
  { Locale.root symbols { id := 0, name := none, params := [], isVararg := false, upvalues := [], body }
    with isWatched := false }

namespace Lower

open LoweringState

variable (symbols : SymbolTable) {held : List (TempKind × Nat)}

theorem regular_unwatched {body : List Stmt} {s : LoweringState} (h : s.Sound 0 0 0 held) :
    s.Regular (.unwatched symbols body) { Outlook.start with held, locals := [[]] } :=
  ⟨h, nofun, nofun, nofun, nofun⟩

/-- A statement returns whatever it takes, in every sound state. -/
theorem leads_ofStmt (st : Stmt) :
    Leads (Sound 0 0 0 held) (ofStmt symbols st) fun _ => Sound 0 0 0 held := by
  have hst : StmtIsRegular symbols st := treeCases_isRegular.stmt st
  have hconducts := hst (.unwatched symbols [st]) [] [] rfl List.nil_suffix
    fun u hu => List.mem_append_left _ hu
  exact fun s hs => (hconducts _ ⟨rfl, rfl, rfl, rfl, rfl⟩ s (regular_unwatched symbols hs)).imp
    fun _ _ h => h.sound

/-- An expression holds the temporary of its value, in every sound state. -/
theorem leads_oneExpr (e : Expr) : Leads (Sound 0 0 0 held) (one (ofExpr symbols e)) fun o =>
    Sound 0 0 0 (o.temps ++ held) := by
  have he : ExprIsRegular symbols e := treeCases_isRegular.expr e
  have hregular := he (.unwatched symbols [.eval e]) [[]] rfl
    fun u hu => List.mem_append_left _ (List.mem_map_of_mem hu)
  have hready : Outlook.Ready { Outlook.start with held, locals := [[]] } [[]] :=
    ⟨⟨rfl, fun _ hb => (Option.some.inj hb).symm⟩, rfl, fun _ hr => absurd rfl hr⟩
  have hone := leads_one_bind (f := pure) (Q := fun o => Sound 0 0 0 (Operand.temps o ++ held)) hregular
    hready fun o G _ => meets_pure fun _ h => h.sound
  rw [bind_pure] at hone
  exact hone.pre fun _ => regular_unwatched symbols

end Lower

namespace Tree

variable (t : Tree) (stats : Stats)

/-- Lowering a tree gives procs, or the tree is refused. Otherwise the generic temporaries have run
out, or a result of a call is claimed while it is live: then a register was live above the callee of
some call, which takes a numeric loop that holds a bound in a generic temporary. -/
theorem lowering_stops_only :
    match t.lowering stats with
    | .ok _ _ => True
    | .error (.refused _) _ => True
    | .error (.stopped b) s =>
      (b = .overflow ∧ wordLimit ≤ s.fn.proc.anys.next + 1) ∨
        ((∃ r, b = .alreadyLive r) ∧ t.plainLoops = false ∧
          ∃ c ∈ t.emittedCalls stats, ¬ c.Clear) := by
  cases hl : t.lowering stats with
  | ok _ _ => trivial
  | error e s =>
    have he := (t.ends_lowering stats).of_error hl
    have hcalls : t.emittedCalls stats = s.calls := by rw [emittedCalls, hl]
    cases e with
    | refused _ => trivial
    | stopped b =>
      cases b with
      | overflow => exact Or.inl ⟨rfl, he⟩
      | alreadyLive r =>
        obtain ⟨c, hc, hclear⟩ := he
        rw [← hcalls] at hc
        refine Or.inr ⟨⟨r, rfl⟩, ?_, c, hc, hclear⟩
        rw [Bool.eq_false_iff]
        intro hp
        exact hclear (t.emittedCalls_clear_of_callsClear stats (t.callsClear_of_plainLoops hp) c hc)
      | _ => exact he.elim

/-- A loop that starts at a global, with a call in its body of which two results are taken. -/
def spreadFromGlobal : Tree where
  symbols := ⟨#[⟨"i", .any, .localOf 0⟩, ⟨"g", .any, .global⟩, ⟨"f", .any, .global⟩,
    ⟨"a", .any, .localOf 0⟩, ⟨"b", .any, .localOf 0⟩]⟩
  main :=
    { id := 0, name := none, params := [], isVararg := false, upvalues := []
      body := [.numericFor 0 ⟨.any, .symbol 1⟩ ⟨.integer, .integer 10⟩ none
        [.declare [3, 4] [⟨.any, .call ⟨.any, .symbol 2⟩ []⟩]]] }

/-- The call takes the register of the first bound, and its second result that of the index. -/
theorem spreadFromGlobal_stops :
    ∃ s, spreadFromGlobal.lowering {} = .error (.stopped (.alreadyLive 1)) s := by
  have h : (spreadFromGlobal.lowering {}).casesOn (motive := fun _ => Bool) (fun _ _ => false)
      (fun e _ => e = .stopped (.alreadyLive 1)) = true := by decide +kernel
  cases hl : spreadFromGlobal.lowering {} with
  | ok _ s => simp [hl] at h
  | error e s =>
    rw [hl] at h
    exact ⟨s, by rw [of_decide_eq_true h]⟩

end Tree

end ScriptC
