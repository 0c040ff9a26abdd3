import ScriptC.Proofs.Jumps.Quiet

/-! # Text of statements

The text of a statement shows exactly the jumps of the statement, and defines no label. The text of a
function defines the labels of its blocks and of its two exits.
-/

namespace ScriptC

open Text

section Jumps

/-- A place in a function that has a label: a block, or where errors are raised. -/
inductive Place where
  | block (b : Nat)
  | failure
deriving DecidableEq, Repr

def Place.label : Place → String
  | block b => blockLabel b
  | failure => "Lraise_error"

mutual

/-- The jumps in a statement, in the order of its text. -/
def Code.jumps : Code → List Place
  | .goto b => [.block b]
  | .branch _ t f => [.block t, .block f]
  | .raise _ | .guard _ _ | .readNumber _ => [.failure]
  | .scope body => Code.jumpsOf body
  | _ => []

def Code.jumpsOf : List Code → List Place
  | [] => []
  | c :: cs => c.jumps ++ Code.jumpsOf cs

end

/-- Part of a line that has no colon and shows these jumps. -/
structure Inline (s : String) (js : List Place) : Prop where
  gotos : ∀ rest, gotosFrom (s.toList ++ rest) = js.map Place.label ++ gotosFrom rest
  colon : ':' ∉ s.toList

/-- Lines that define the labels of some places and show jumps to others. -/
structure Shows (s : String) (ls js : List Place) : Prop where
  labels : ∀ rest, labelsFrom [] (s.toList ++ rest) = ls.map Place.label ++ labelsFrom [] rest
  gotos : ∀ rest, gotosFrom (s.toList ++ rest) = js.map Place.label ++ gotosFrom rest

variable {s t : String} {js ks ls ms : List Place}

theorem Text.Quiet.inline (h : Quiet s) : Inline s [] where
  gotos := gotosFrom_append h
  colon := colon_not_mem h

theorem Inline.append (hs : Inline s js) (ht : Inline t ks) : Inline (s ++ t) (js ++ ks) where
  gotos rest := by
    rw [String.toList_append, List.append_assoc, hs.gotos, ht.gotos, List.map_append,
      List.append_assoc]
  colon := by
    rw [String.toList_append, List.mem_append, not_or]
    exact ⟨hs.colon, ht.colon⟩

theorem Shows.append (hs : Shows s ls js) (ht : Shows t ms ks) :
    Shows (s ++ t) (ls ++ ms) (js ++ ks) where
  labels rest := by
    rw [String.toList_append, List.append_assoc, hs.labels, ht.labels, List.map_append,
      List.append_assoc]
  gotos rest := by
    rw [String.toList_append, List.append_assoc, hs.gotos, ht.gotos, List.map_append,
      List.append_assoc]

theorem shows_empty : Shows "" [] [] where
  labels _ := rfl
  gotos _ := rfl

theorem Shows.labels_eq (h : Shows s ls js) : Text.labels s = ls.map Place.label := by
  have := h.labels []
  rwa [List.append_nil, labelsFrom, List.append_nil] at this

theorem Shows.gotos_eq (h : Shows s ls js) : Text.gotos s = js.map Place.label := by
  have := h.gotos []
  rwa [List.append_nil, gotosFrom, List.append_nil] at this

theorem Text.labelsFrom_line {cs : List Char} (h : ':' ∉ cs) (name rest : List Char) :
    labelsFrom name (cs ++ '\n' :: rest) = labelsFrom [] rest := by
  induction cs generalizing name with
  | nil => rfl
  | cons c cs ih =>
    obtain ⟨hc, hcs⟩ := List.ne_and_not_mem_of_not_mem_cons h
    rw [List.cons_append, labelsFrom, if_neg (Ne.symm hc), ih hcs]

theorem Inline.line (h : Inline s js) : Shows (s ++ "\n") [] js where
  labels rest := by
    rw [String.toList_append, List.append_assoc]
    exact labelsFrom_line h.colon [] rest
  gotos rest := by
    have hquiet : quietFrom ['\n'] = true := rfl
    have hbreak : gotosFrom ('\n' :: rest) = gotosFrom rest := gotosFrom_append hquiet rest
    rw [String.toList_append, List.append_assoc, h.gotos]
    exact congrArg (js.map Place.label ++ ·) hbreak

theorem Inline.indented (h : Inline s js) (depth : Nat) : Shows (indented depth s) [] js := by
  have hmargin : Inline (String.join (List.replicate depth "  ")) [] := by
    induction depth with
    | zero => exact Quiet.inline (by decide)
    | succ depth ih =>
      rw [List.replicate_succ, String.join_cons]
      exact (Quiet.inline (by decide)).append ih
  exact (hmargin.append h).line

theorem Text.Quiet.indented (h : Quiet s) (depth : Nat) : Shows (indented depth s) [] [] :=
  h.inline.indented depth

theorem Place.quiet_label (j : Place) : Quiet j.label := by
  cases j with
  | block b => exact Quiet.append (by decide) (quiet_repr b)
  | failure => decide

theorem Place.isNamePart_of_mem {j : Place} {c : Char} (h : c ∈ j.label.toList) :
    isNamePart c = true := by
  cases j with
  | block b =>
    have hlabel : (Place.block b).label.toList = 'L' :: Nat.toDigits 10 b := by
      change ("L" ++ b.repr).toList = _
      rw [String.toList_append, Nat.toList_repr]
      rfl
    rw [hlabel] at h
    rcases List.mem_cons.mp h with rfl | h
    · rfl
    · have hdigit := Nat.isDigit_of_mem_toDigits (by decide) (by decide) h
      simp [isNamePart, Char.isAlphanum, hdigit]
  | failure =>
    have hall : Place.failure.label.toList.all isNamePart = true := by decide
    exact List.all_eq_true.mp hall c h

/-- A jump is shown by the name after its `goto`. -/
theorem Place.inline (j : Place) : Inline ("goto " ++ j.label ++ ";") [j] where
  gotos rest := by
    have hname : (j.label.toList ++ ';' :: rest).takeWhile isNamePart = j.label.toList := by
      rw [List.takeWhile_append_of_pos fun c => isNamePart_of_mem]
      simp [isNamePart]
    have hquiet : Quiet ("oto " ++ j.label ++ ";") :=
      .append (.append (by decide) j.quiet_label) (by decide)
    have hrest := gotosFrom_append hquiet rest
    simp only [String.toList_append, List.append_assoc] at hrest ⊢
    change String.ofList ((j.label.toList ++ ';' :: rest).takeWhile isNamePart) ::
      gotosFrom ("oto ".toList ++ (j.label.toList ++ (";".toList ++ rest))) = _
    rw [hname, hrest, String.ofList_toList]
    rfl
  colon := by
    have hquiet := colon_not_mem j.quiet_label
    simp [hquiet]

theorem shows_linesAt {texts : List String} {jss : List (List Place)}
    (h : List.Forall₂ Inline texts jss) (depth : Nat) : Shows (linesAt depth texts) [] jss.flatten := by
  induction h with
  | nil => exact shows_empty
  | cons hs _ ih =>
    rw [linesAt, List.map_cons, String.join_cons, List.flatten_cons]
    exact (hs.indented depth).append ih

theorem shows_linesAt_of_quiet {texts : List String} (h : ∀ s ∈ texts, Quiet s) (depth : Nat) :
    Shows (linesAt depth texts) [] [] := by
  induction texts with
  | nil => exact shows_empty
  | cons s texts ih =>
    obtain ⟨hs, htexts⟩ := List.forall_mem_cons.mp h
    rw [linesAt, List.map_cons, String.join_cons]
    exact (hs.indented depth).append (ih htexts)

theorem ErrorCode.shows_raised (code : ErrorCode) (depth : Nat) :
    Shows (code.raised depth) [] [.failure] := by
  have hcode : Quiet s!"error_code = {code.text};" :=
    .append (.append (by decide) code.quiet_text) (by decide)
  have hgoto : Inline "goto Lraise_error;" [.failure] := Place.failure.inline
  exact shows_linesAt (.cons hcode.inline (.cons hgoto .nil)) depth

/-- A guarded jump to where errors are raised. -/
theorem ErrorCode.shows_guarded (code : ErrorCode) (depth : Nat) :
    Shows (code.raised (depth + 1) ++ indented depth "\x7d") [] [.failure] :=
  (code.shows_raised (depth + 1)).append (Quiet.indented (by decide) depth)

theorem Code.shows_branch (depth : Nat) (a : Address) (t f : Nat) :
    Shows (Code.text depth (.branch a t f)) [] [.block t, .block f] := by
  have hif : Quiet s!"if (!l_isfalse({a.text})) " :=
    .append (.append (by decide) a.quiet_text) (by decide)
  have helse : Quiet " else " := by decide
  have htext : s!"if (!l_isfalse({a.text})) goto {blockLabel t}; else goto {blockLabel f};" =
      s!"if (!l_isfalse({a.text})) " ++ ("goto " ++ blockLabel t ++ ";") ++
        (" else " ++ ("goto " ++ blockLabel f ++ ";")) := by
    have hthen : toString ")) goto " = toString ")) " ++ "goto " := rfl
    have hsep : toString "; else goto " = ";" ++ (" else " ++ "goto ") := rfl
    rw [hthen, hsep]
    simp only [String.append_assoc]
    rfl
  rw [Code.text, htext]
  exact ((hif.inline.append (Place.block t).inline).append
    (helse.inline.append (Place.block f).inline)).indented depth

mutual

/-- The text of a statement shows its jumps and defines no label. -/
theorem Code.shows_text (depth : Nat) (c : Code) : Shows (c.text depth) [] c.jumps := by
  have hopen : Quiet "\x7b" := by decide
  have hclose : Quiet "\x7d" := by decide
  cases c with
  | goto b => exact (Place.block b).inline.indented depth
  | branch a t f => exact Code.shows_branch depth a t f
  | raise code => exact code.shows_raised depth
  | guard failed code =>
    have hif : Quiet s!"if ({failed.text}) \x7b" :=
      .append (.append (by decide) failed.quiet_text) (by decide)
    rw [Code.text, String.append_assoc]
    exact (hif.indented depth).append (code.shows_guarded depth)
  | readNumber a =>
    have hlines : ∀ s ∈ [s!"if (ttisfloat({a.text})) v_ = fltvalue({a.text});",
        s!"else if (ttisinteger({a.text})) v_ = (ravel_num)ivalue({a.text});", "else \x7b"],
        Quiet s := by
      simp only [List.forall_mem_cons]
      refine ⟨?_, ?_, by decide, List.forall_mem_nil _⟩
      all_goals
        repeat' with_reducible apply Quiet.append
        all_goals first | decide | exact a.quiet_text
    rw [Code.text, String.append_assoc]
    exact (shows_linesAt_of_quiet hlines depth).append
      (ErrorCode.numberExpected.shows_guarded depth)
  | scope body =>
    have h := ((hopen.indented depth).append (Code.shows_texts (depth + 1) body)).append
      (hclose.indented depth)
    rw [List.append_nil ([] ++ Code.jumpsOf body)] at h
    exact h
  | invoke helper args =>
    have hargs : Quiet (String.intercalate ", " (args.map Argument.text)) := by
      apply quiet_intercalate (by decide)
      intro s hs
      obtain ⟨a, -, rfl⟩ := List.mem_map.mp hs
      exact a.quiet_text
    exact Quiet.indented (.append (.append (.append helper.quiet_name (by decide)) hargs)
      (by decide)) depth
  | setResults n hasTail | setTop n hasTail =>
    rw [Code.text]
    apply Quiet.indented
    split
    all_goals
      repeat' with_reducible apply Quiet.append
      all_goals first | decide | exact quiet_repr n
  | _ =>
    rw [Code.text]
    apply Quiet.indented
    repeat' with_reducible apply Quiet.append
    all_goals first | decide | simp +decide

theorem Code.shows_texts (depth : Nat) (cs : List Code) :
    Shows (Code.texts depth cs) [] (Code.jumpsOf cs) := by
  match cs with
  | [] => exact shows_empty
  | c :: cs => exact (Code.shows_text depth c).append (Code.shows_texts depth cs)

end

/-- A line that is a label. -/
theorem Place.shows_label (j : Place) : Shows (j.label ++ ":\n") [j] [] where
  labels rest := by
    have hname (cs name : List Char) (h : ∀ c ∈ cs, isNamePart c = true) :
        labelsFrom name (cs ++ ':' :: '\n' :: rest) =
          String.ofList (name.reverse ++ cs) :: labelsFrom [] rest := by
      induction cs generalizing name with
      | nil => simp [labelsFrom, isNamePart]
      | cons c cs ih =>
        obtain ⟨hc, hcs⟩ := List.forall_mem_cons.mp h
        have hcolon : c ≠ ':' := by
          rintro rfl
          cases hc
        rw [List.cons_append, labelsFrom, if_neg hcolon, if_pos hc, ih _ hcs, List.reverse_cons,
          List.append_assoc, List.singleton_append]
    rw [String.toList_append, List.append_assoc]
    change labelsFrom [] (j.label.toList ++ ':' :: '\n' :: rest) = _
    rw [hname _ _ fun c => isNamePart_of_mem, List.reverse_nil, List.nil_append, String.ofList_toList]
    rfl
  gotos rest := by
    rw [String.toList_append, List.append_assoc, gotosFrom_append j.quiet_label]
    rfl

namespace CodeUnit

theorem shows_blocks (blocks : List (Nat × List Code)) :
    Shows (String.join (blocks.map fun (b, code) => blockText b code))
      (blocks.map fun (b, _) => .block b) (blocks.flatMap fun (_, code) => Code.jumpsOf code) := by
  induction blocks with
  | nil => exact shows_empty
  | cons block blocks ih =>
    rw [List.map_cons, String.join_cons]
    exact ((Place.block block.1).shows_label.append (Code.shows_texts 1 block.2)).append ih

theorem shows_epilogue : Shows epilogue [.block exitBlock, .failure] [] := by
  have hexit : Shows (linesAt 1 ["return ravel_return(L, ci->func, nresults);"]) [] [] :=
    shows_linesAt_of_quiet (by decide) 1
  have hraise : Shows (linesAt 1 ["ravel_raise_error(L, error_code);", "return 0;"]) [] [] :=
    shows_linesAt_of_quiet (by decide) 1
  have hclose : Quiet "\x7d" := by decide
  exact ((((Place.block exitBlock).shows_label.append hexit).append
    Place.failure.shows_label).append hraise).append hclose.inline.line

/-- The lines between the head of a function and its first block show nothing. -/
theorem exists_text_eq_append (unit : CodeUnit) : ∃ opening,
    unit.text = s!"int {unit.name}(ravel_State *L)" ++ (opening ++
      String.join (unit.blocks.map fun (b, code) => blockText b code) ++ epilogue) ∧
    Shows opening [] [] := by
  have hbrace : toString "(ravel_State *L) \x7b\n" = toString "(ravel_State *L)" ++ " \x7b\n" := rfl
  have hopen : Quiet " \x7b" := by decide
  rw [text, prologue]
  generalize hlines : [_, _, _, _, _, _, _] ++ _ ++ _ ++ _ = lines
  have hquiet : ∀ s ∈ lines, Quiet s := by
    rw [← hlines]
    simp only [List.forall_mem_append]
    refine ⟨⟨⟨by decide, ?_⟩, ?_⟩, by decide⟩
    all_goals
      intro s hs
      obtain ⟨i, -, rfl⟩ := List.mem_map.mp hs
      exact .append (.append (by decide) (quiet_repr i)) (by decide)
  refine ⟨" \x7b\n" ++ linesAt 1 lines, ?_, ?_⟩
  · simp only [hbrace, String.append_assoc]
  · exact hopen.inline.line.append (shows_linesAt_of_quiet hquiet 1)

end CodeUnit

end Jumps

end ScriptC
