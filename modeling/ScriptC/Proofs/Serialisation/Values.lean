import ScriptC.Json.Reader
import ScriptC.Json.Writer
import ScriptC.Proofs.Serialisation.Numerals

/-! # JSON values that are read back from their text

A value is read back if its strings have texts and its numbers are tokens: a character is written
as one piece of a literal, and a value as a text that ends where the value ends.
-/

namespace ScriptC.Json

attribute [local simp] pieces? join? value? items? members? pretty prettyItems prettyMembers

/-! ## String literals -/

/-- What a written character is read as. One that is written in hexadecimal is read as a unit. -/
def pieceOf (c : Char) : Piece :=
  match escape c with
  | [_] | [_, _] => .char c
  | _ => .unit c.toNat

theorem hexDigit?_hexChar : ∀ n < 16, hexDigit? (hexChar n) = some n := by decide

theorem unit?_hexChar {n : Nat} (hn : n < 0x20) :
    unit? '0' '0' (hexChar (n / 16)) (hexChar (n % 16)) = some (.unit n) := by
  have hzero : hexDigit? '0' = some 0 := rfl
  have hhigh := hexDigit?_hexChar (n / 16) (by omega)
  have hlow := hexDigit?_hexChar (n % 16) (Nat.mod_lt _ (by decide))
  simp only [unit?, hzero, hhigh, hlow, Option.bind_eq_bind, Option.bind_some, Option.some.injEq,
    Piece.unit.injEq]
  omega

theorem pieces?_char {c : Char} (hquote : c ≠ '"') (hslash : c ≠ '\\') (hc : ¬ c.toNat < 0x20)
    (acc : List Piece) (rest : List Char) :
    pieces? acc (c :: rest) = pieces? (.char c :: acc) rest := by
  rw [pieces?.eq_def]
  split
  · contradiction
  · next h => exact absurd (List.cons.inj h).1 hquote
  · next h => exact absurd (List.cons.inj h).1 hslash
  · next h => exact absurd (List.cons.inj h).1 hslash
  · next h =>
    obtain ⟨rfl, rfl⟩ := List.cons.inj h
    rw [if_neg (not_or.2 ⟨hc, hslash⟩)]

/-- A written character is one piece. -/
theorem pieces?_escape (acc : List Piece) (c : Char) (rest : List Char) :
    pieces? acc (escape c ++ rest) = pieces? (pieceOf c :: acc) rest := by
  unfold pieceOf escape
  split
  case h_8 hquote hslash _ _ _ _ _ =>
    split
    · next hlt =>
      simp only [List.cons_append, List.nil_append]
      rw [pieces?, unit?_hexChar hlt]
    · next hlt => exact pieces?_char hquote hslash hlt acc rest
  all_goals rfl

theorem pieces?_flatMap (acc : List Piece) (cs rest : List Char) :
    pieces? acc (cs.flatMap escape ++ '"' :: rest) = some (acc.reverse ++ cs.map pieceOf, rest) := by
  induction cs generalizing acc with
  | nil => simp [pieces?]
  | cons c cs ih =>
    rw [List.flatMap_cons, List.append_assoc, pieces?_escape, ih]
    simp

theorem pieceOf_cases (c : Char) :
    pieceOf c = .char c ∨ pieceOf c = .unit c.toNat ∧ c.toNat < 0x20 := by
  have hescape : (∃ a, escape c = [a]) ∨ (∃ a b, escape c = [a, b]) ∨ c.toNat < 0x20 := by
    unfold escape
    split
    case h_8 =>
      split
      · next hlt => exact .inr (.inr hlt)
      · exact .inl ⟨_, rfl⟩
    all_goals exact .inr (.inl ⟨_, _, rfl⟩)
  unfold pieceOf
  split
  · exact .inl rfl
  · exact .inl rfl
  · next hone htwo =>
    rcases hescape with ⟨a, ha⟩ | ⟨a, b, hab⟩ | hlt
    · exact absurd ha (hone a)
    · exact absurd hab (htwo a b)
    · exact .inr ⟨rfl, hlt⟩

/-- The units of control characters are no surrogates. -/
theorem join?_unit {n : Nat} (hn : n < 0x20) (acc : List Char) (ps : List Piece) :
    join? acc (.unit n :: ps) = join? (Char.ofNat n :: acc) ps := by
  have hhigh : isHighSurrogate n = false := by simp [isHighSurrogate]; omega
  have hlow : isLowSurrogate n = false := by simp [isLowSurrogate]; omega
  rw [join?.eq_def]
  split <;> simp_all

theorem join?_pieceOf (acc : List Char) (c : Char) (ps : List Piece) :
    join? acc (pieceOf c :: ps) = join? (c :: acc) ps := by
  rcases pieceOf_cases c with h | ⟨h, hlt⟩
  · rw [h, join?]
  · rw [h, join?_unit hlt, Char.ofNat_toNat]

theorem join?_map (acc cs : List Char) :
    join? acc (cs.map pieceOf) = some (String.ofList (acc.reverse ++ cs)) := by
  induction cs generalizing acc with
  | nil => simp [join?]
  | cons c cs ih =>
    rw [List.map_cons, join?_pieceOf, ih]
    simp

theorem toList_quote (s : String) : (quote s).toList = '"' :: (s.toList.flatMap escape ++ ['"']) := by
  have hfold (t : String) (cs : List Char) :
      (cs.foldl (fun t c => t ++ String.ofList (escape c)) t).toList =
        t.toList ++ cs.flatMap escape := by
    induction cs generalizing t with
    | nil => simp
    | cons c cs ih =>
      rw [List.foldl_cons, ih, String.toList_append, String.toList_ofList, List.append_assoc,
        List.flatMap_cons]
  rw [quote, String.toList_append, String.foldl_eq_foldl_toList, hfold]
  rfl

/-- A text is read back from its literal. -/
theorem literal?_quote (s : String) (rest : List Char) :
    ∃ r, (quote s).toList ++ rest = '"' :: r ∧ literal? r = some (some s, rest) := by
  refine ⟨s.toList.flatMap escape ++ '"' :: rest, ?_, ?_⟩
  · rw [toList_quote]
    simp
  · rw [literal?, pieces?_flatMap]
    simp [join?_map]

/-! ## Values -/

/-- Every string and every key has a text, and every number is a token. -/
inductive Proper : Json → Prop where
  | null : Proper .null
  | bool (b : Bool) : Proper (.bool b)
  | num {t : String} : Numeral.IsToken t.toList → Proper (.num t)
  | str (s : String) : Proper (.str (some s))
  | arr {items : List Json} : (∀ j ∈ items, Proper j) → Proper (.arr items)
  | obj {members : List (String × Json)} : (∀ m ∈ members, Proper m.2) → Proper (.record members)

theorem toList_newline (level : Nat) :
    (newline level).toList = '\n' :: List.replicate (2 * level) ' ' := by
  simp only [newline, String.toList_append, String.toList_ofList]
  rfl

theorem skip_newline (level : Nat) (s : List Char) :
    skip ((newline level).toList ++ s) = skip s := by
  apply List.dropWhile_append_of_pos
  intro c hc
  rw [toList_newline] at hc
  rcases List.mem_cons.1 hc with rfl | h
  · rfl
  · rw [List.eq_of_mem_replicate h]
    rfl

theorem skip_cons {c : Char} (hc : isBlank c = false) (s : List Char) : skip (c :: s) = c :: s := by
  rw [skip, List.dropWhile_cons_of_neg (by rw [hc]; decide)]

theorem value?_newline (fuel level : Nat) (s : List Char) :
    value? fuel ((newline level).toList ++ s) = value? fuel s := by
  cases fuel with
  | zero => rfl
  | succ n => rw [value?, value?, skip_newline]

/-- The members of a record, with keys that have texts. -/
def keyed (members : List (String × Json)) : List (Option String × Json) :=
  members.map fun (k, v) => (some k, v)

theorem value?_blank (fuel : Nat) (s : List Char) : value? fuel (' ' :: s) = value? fuel s := by
  cases fuel with
  | zero => rfl
  | succ n =>
    rw [value?, value?]
    rfl

section Texts

variable (level : Nat) (x : Json) (xs : List Json) (k : String) (ms : List (String × Json))

theorem toList_arr : (pretty level (.arr (x :: xs))).toList =
    '[' :: ((newline (level + 1)).toList ++ ((pretty (level + 1) x).toList ++
      ((prettyItems (level + 1) xs).toList ++ ((newline level).toList ++ [']'])))) := by
  simp only [pretty, String.toList_append, List.append_assoc]
  rfl

theorem toList_items : (prettyItems level (x :: xs)).toList =
    ',' :: ((newline level).toList ++
      ((pretty level x).toList ++ (prettyItems level xs).toList)) := by
  simp only [prettyItems, String.toList_append, List.append_assoc]
  rfl

/-- The text of the members after the first one. -/
def laterMembers (level : Nat) (ms : List (String × Json)) : List Char :=
  (prettyMembers level (keyed ms)).toList

/-- The text of a member, before what follows it. -/
def member (rest : List Char) : List Char :=
  (newline level).toList ++ ((quote k).toList ++ (':' :: ' ' :: ((pretty level x).toList ++ rest)))

theorem member_append (rest rest' : List Char) :
    member level x k rest ++ rest' = member level x k (rest ++ rest') := by
  simp only [member, List.cons_append, List.append_assoc]

theorem toList_record : (pretty level (.record ((k, x) :: ms))).toList =
    '{' :: member (level + 1) x k (laterMembers (level + 1) ms ++ ((newline level).toList ++ ['}'])) := by
  simp only [record, List.map_cons, pretty, quoted, String.toList_append, List.append_assoc]
  rfl

theorem laterMembers_cons : laterMembers level ((k, x) :: ms) =
    ',' :: member level x k (laterMembers level ms) := by
  simp only [laterMembers, keyed, List.map_cons, prettyMembers, quoted, String.toList_append,
    List.append_assoc]
  rfl

end Texts

/-- What stands after a value: nothing, a comma or a line break. -/
def Ends (rest : List Char) : Prop := ∀ c ∈ rest.head?, c = ',' ∨ c = '\n'

theorem Ends.stops {rest : List Char} (h : Ends rest) : Numeral.Stops rest := by
  intro c hc
  rcases h c hc with rfl | rfl <;> decide

theorem ends_newline (level : Nat) (rest : List Char) : Ends ((newline level).toList ++ rest) := by
  rw [toList_newline]
  intro c hc
  cases hc
  exact .inr rfl

theorem ends_comma (rest : List Char) : Ends (',' :: rest) := by
  intro c hc
  cases hc
  exact .inl rfl

/-- The value is read back, whatever stands after its text. -/
def ReadsBack (j : Json) : Prop :=
  ∀ level fuel rest, Ends rest → 2 * (pretty level j).toList.length ≤ fuel →
    value? fuel ((pretty level j).toList ++ rest) = some (j, rest)

/-- The first character of a number is not blank and starts no other value. -/
theorem not_mem_of_isToken {c : Char} (hc : c.isDigit = true ∨ c = '-') :
    isBlank c = false ∧ c ∉ ['n', 't', 'f', '"', '[', '{', ']'] := by
  have hother : [' ', '\n', '\t', '\r', 'n', 't', 'f', '"', '[', '{', ']'].all
      (fun d => !(d.isDigit || d == '-')) = true := by decide
  have hne (d : Char) (hd : d ∈ [' ', '\n', '\t', '\r', 'n', 't', 'f', '"', '[', '{', ']']) :
      c ≠ d := by
    rintro rfl
    have h := List.all_eq_true.1 hother c hd
    simp only [Bool.not_eq_true', Bool.or_eq_false_iff, beq_eq_false_iff_ne] at h
    rcases hc with hc | hc
    · exact absurd (hc.symm.trans h.1) (by decide)
    · exact h.2 hc
  constructor
  · simp [isBlank, hne ' ', hne '\n', hne '\t', hne '\r']
  · exact fun h => hne c (List.mem_append_right [' ', '\n', '\t', '\r'] h) rfl

/-- No text of a value starts with a blank or like the end of an array. -/
theorem Proper.exists_cons {j : Json} (h : Proper j) (level : Nat) :
    ∃ c r, (pretty level j).toList = c :: r ∧ isBlank c = false ∧ c ≠ ']' := by
  cases h with
  | null =>
    rw [pretty]
    exact ⟨'n', _, rfl, by decide⟩
  | bool b =>
    cases b with
    | true =>
      rw [pretty]
      exact ⟨'t', _, rfl, by decide⟩
    | false =>
      rw [pretty]
      exact ⟨'f', _, rfl, by decide⟩
  | num ht =>
    obtain ⟨c, r, hcr, hc⟩ := ht.exists_cons
    obtain ⟨hblank, hmem⟩ := not_mem_of_isToken hc
    rw [pretty]
    exact ⟨c, r, hcr, hblank, fun h => hmem (by simp [h])⟩
  | str s =>
    rw [pretty, quoted, toList_quote]
    exact ⟨'"', _, rfl, by decide⟩
  | @arr items _ =>
    cases items with
    | nil =>
      rw [pretty]
      exact ⟨'[', _, rfl, by decide⟩
    | cons x xs =>
      rw [toList_arr]
      exact ⟨'[', _, rfl, by decide⟩
  | @obj members _ =>
    cases members with
    | nil =>
      rw [record, List.map_nil, pretty]
      exact ⟨'{', _, rfl, by decide⟩
    | cons m ms =>
      obtain ⟨k, x⟩ := m
      rw [toList_record]
      exact ⟨'{', _, rfl, by decide⟩

/-! ## Reading values -/

/-- A text is not empty, so there is fuel for the first call. -/
theorem Proper.readsBack_of_succ {j : Json} (hj : Proper j)
    (h : ∀ level n rest, Ends rest → 2 * (pretty level j).toList.length ≤ n + 1 →
      value? (n + 1) ((pretty level j).toList ++ rest) = some (j, rest)) : ReadsBack j := by
  intro level fuel rest hrest hfuel
  obtain ⟨c, r, hcr, -⟩ := hj.exists_cons level
  cases fuel with
  | zero =>
    rw [hcr, List.length_cons] at hfuel
    omega
  | succ n => exact h level n rest hrest hfuel

theorem readsBack_num {t : String} (ht : Numeral.IsToken t.toList) : ReadsBack (.num t) := by
  apply (Proper.num ht).readsBack_of_succ
  intro level n rest hrest _
  obtain ⟨c, r, hcr, hc⟩ := ht.exists_cons
  obtain ⟨hblank, hmem⟩ := not_mem_of_isToken hc
  have htoken := ht.token?_append hrest.stops
  have hskip : skip (t.toList ++ rest) = c :: (r ++ rest) := by
    rw [hcr, List.cons_append, skip_cons hblank]
  rw [pretty, value?, hskip]
  split
  case h_7 =>
    rw [← List.cons_append, ← hcr, htoken]
    simp
  all_goals
    next h =>
    obtain ⟨rfl, -⟩ := List.cons.inj h
    simp at hmem

theorem readsBack_str (s : String) : ReadsBack (.str (some s)) := by
  apply (Proper.str s).readsBack_of_succ
  intro level n rest _ _
  obtain ⟨r, hr, hliteral⟩ := literal?_quote s rest
  rw [pretty, quoted, value?, hr, skip_cons (by decide)]
  simp only [hliteral]
  rfl

section Items

variable {x : Json} {level n : Nat}

/-- One item that another one follows. -/
theorem items?_comma (h : ReadsBack x) (hfuel : 2 * (pretty level x).toList.length ≤ n)
    (rest : List Char) :
    items? (n + 1) ((newline level).toList ++ ((pretty level x).toList ++ ',' :: rest)) =
      (items? n rest).map fun p => (x :: p.1, p.2) := by
  rw [items?, value?_newline, h level n _ (ends_comma rest) hfuel]
  rfl

theorem items?_last (h : ReadsBack x) (hfuel : 2 * (pretty level x).toList.length ≤ n)
    (outer : Nat) (rest : List Char) :
    items? (n + 1) ((newline level).toList ++ ((pretty level x).toList ++
      ((newline outer).toList ++ ']' :: rest))) = some ([x], rest) := by
  rw [items?, value?_newline, h level n _ (ends_newline outer _) hfuel]
  simp only [skip_newline]
  rfl

end Items

theorem items?_pretty {x : Json} {xs : List Json} (h : ∀ j ∈ x :: xs, ReadsBack j)
    (level outer fuel : Nat) (rest : List Char)
    (hfuel : 2 * ((pretty level x).toList.length + (prettyItems level xs).toList.length) < fuel) :
    items? fuel ((newline level).toList ++ ((pretty level x).toList ++
      ((prettyItems level xs).toList ++ ((newline outer).toList ++ ']' :: rest)))) =
        some (x :: xs, rest) := by
  obtain ⟨n, rfl⟩ := Nat.exists_eq_add_one_of_ne_zero (Nat.ne_zero_of_lt hfuel)
  have hlength : 2 * (pretty level x).toList.length ≤ n := by omega
  have hx := h x List.mem_cons_self
  induction xs generalizing x n with
  | nil =>
    rw [prettyItems]
    exact items?_last hx hlength outer rest
  | cons y ys ih =>
    rw [toList_items] at hfuel ⊢
    simp only [List.length_cons, List.length_append] at hfuel
    obtain ⟨m, rfl⟩ : ∃ m, n = m + 1 := ⟨n - 1, by omega⟩
    have hys := ih (fun j hj => h j (List.mem_cons_of_mem x hj)) m (by omega) (by omega)
      (h y (List.mem_cons_of_mem x List.mem_cons_self))
    simp only [List.cons_append, List.append_assoc]
    rw [items?_comma hx hlength, hys]
    rfl

theorem readsBack_arr {items : List Json} (hproper : ∀ j ∈ items, Proper j)
    (h : ∀ j ∈ items, ReadsBack j) : ReadsBack (.arr items) := by
  apply (Proper.arr hproper).readsBack_of_succ
  intro level n rest _ hfuel
  cases items with
  | nil =>
    rw [pretty, value?]
    rfl
  | cons x xs =>
    rw [toList_arr] at hfuel ⊢
    simp only [List.length_cons, List.length_append] at hfuel
    have hitems := items?_pretty h (level + 1) level n rest (by omega)
    obtain ⟨c, r, hcr, hblank, hc⟩ := (hproper x List.mem_cons_self).exists_cons (level + 1)
    rw [value?]
    simp only [List.cons_append, List.append_assoc, List.nil_append]
    rw [skip_cons (by decide)]
    simp only [skip_newline, hitems]
    rw [hcr, List.cons_append, skip_cons hblank]
    split
    · next h => exact absurd (List.cons.inj h).1 hc
    · rfl

section Members

variable {x : Json} {level n : Nat}

theorem members?_comma (h : ReadsBack x) (hfuel : 2 * (pretty level x).toList.length ≤ n)
    (k : String) (rest : List Char) :
    members? (n + 1) (member level x k (',' :: rest)) =
      (members? n rest).map fun p => ((some k, x) :: p.1, p.2) := by
  obtain ⟨r, hr, hliteral⟩ :=
    literal?_quote k (':' :: ' ' :: ((pretty level x).toList ++ ',' :: rest))
  rw [member, members?, skip_newline, hr, skip_cons (by decide)]
  simp only [hliteral]
  rw [skip_cons (by decide)]
  simp only [value?_blank, h level n _ (ends_comma rest) hfuel]
  rfl

theorem members?_last (h : ReadsBack x) (hfuel : 2 * (pretty level x).toList.length ≤ n)
    (k : String) (outer : Nat) (rest : List Char) :
    members? (n + 1) (member level x k ((newline outer).toList ++ '}' :: rest)) =
      some ([(some k, x)], rest) := by
  obtain ⟨r, hr, hliteral⟩ := literal?_quote k
    (':' :: ' ' :: ((pretty level x).toList ++ ((newline outer).toList ++ '}' :: rest)))
  rw [member, members?, skip_newline, hr, skip_cons (by decide)]
  simp only [hliteral]
  rw [skip_cons (by decide)]
  simp only [value?_blank, h level n _ (ends_newline outer _) hfuel, skip_newline]
  rfl

end Members

theorem members?_pretty {k : String} {x : Json} {ms : List (String × Json)}
    (h : ∀ m ∈ (k, x) :: ms, ReadsBack m.2) (level outer fuel : Nat) (rest : List Char)
    (hfuel : 2 * ((pretty level x).toList.length + (laterMembers level ms).length) < fuel) :
    members? fuel (member level x k
      (laterMembers level ms ++ ((newline outer).toList ++ '}' :: rest))) =
        some (keyed ((k, x) :: ms), rest) := by
  obtain ⟨n, rfl⟩ := Nat.exists_eq_add_one_of_ne_zero (Nat.ne_zero_of_lt hfuel)
  have hlength : 2 * (pretty level x).toList.length ≤ n := by omega
  have hx := h _ List.mem_cons_self
  induction ms generalizing k x n with
  | nil => exact members?_last hx hlength k outer rest
  | cons m ms ih =>
    obtain ⟨k', y⟩ := m
    rw [laterMembers_cons] at hfuel ⊢
    simp only [List.length_cons, List.length_append, member] at hfuel
    obtain ⟨m, rfl⟩ : ∃ m, n = m + 1 := ⟨n - 1, by omega⟩
    have hms := ih (fun j hj => h j (List.mem_cons_of_mem _ hj)) m (by omega) (by omega)
      (h _ (List.mem_cons_of_mem _ List.mem_cons_self))
    rw [List.cons_append, member_append, members?_comma hx hlength, hms]
    rfl

theorem readsBack_record {members : List (String × Json)} (hproper : ∀ m ∈ members, Proper m.2)
    (h : ∀ m ∈ members, ReadsBack m.2) : ReadsBack (.record members) := by
  apply (Proper.obj hproper).readsBack_of_succ
  intro level n rest _ hfuel
  cases members with
  | nil =>
    rw [record, List.map_nil, pretty, value?]
    rfl
  | cons m ms =>
    obtain ⟨k, x⟩ := m
    rw [toList_record] at hfuel ⊢
    simp only [List.length_cons, List.length_append, member] at hfuel
    have hmembers := members?_pretty h (level + 1) level n rest (by omega)
    rw [List.cons_append, member_append, List.append_assoc, List.append_assoc, List.singleton_append,
      value?, skip_cons (by decide)]
    simp only [hmembers]
    rw [member, skip_newline, toList_quote, List.cons_append, skip_cons (by decide)]
    rfl

theorem Proper.readsBack {j : Json} (h : Proper j) : ReadsBack j := by
  induction h with
  | null =>
    apply Proper.null.readsBack_of_succ
    intro level n rest _ _
    rw [pretty, value?]
    rfl
  | bool b =>
    apply (Proper.bool b).readsBack_of_succ
    intro level n rest _ _
    cases b with
    | true =>
      rw [pretty, value?]
      rfl
    | false =>
      rw [pretty, value?]
      rfl
  | num ht => exact readsBack_num ht
  | str s => exact readsBack_str s
  | arr hitems ih => exact readsBack_arr hitems ih
  | obj hmembers ih => exact readsBack_record hmembers ih

end ScriptC.Json
