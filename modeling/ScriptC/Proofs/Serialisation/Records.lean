import ScriptC.Proofs.Serialisation.Values
import ScriptC.Tree.Decoding

/-! # Data that is read back from its JSON form

A reader that may open as many levels of arrays and objects as a value nests recovers what the
value encodes. The lemmas here say so of numbers, of lists and of the two forms of a case with
data, each from its parts.
-/

namespace ScriptC

namespace Json

/-! ## Depth -/

mutual

/-- How deep arrays and objects nest. -/
def depth : Json → Nat
  | .arr items => itemsDepth items + 1
  | .obj members => membersDepth members + 1
  | _ => 0

def itemsDepth : List Json → Nat
  | [] => 0
  | x :: xs => max x.depth (itemsDepth xs)

def membersDepth : List (Option String × Json) → Nat
  | [] => 0
  | (_, x) :: ms => max x.depth (membersDepth ms)

end

theorem itemsDepth_le {items : List Json} {d : Nat} :
    itemsDepth items ≤ d ↔ ∀ x ∈ items, x.depth ≤ d := by
  induction items with
  | nil => simp [itemsDepth]
  | cons x xs ih => rw [itemsDepth, Nat.max_le, ih, List.forall_mem_cons]

theorem membersDepth_le {members : List (Option String × Json)} {d : Nat} :
    membersDepth members ≤ d ↔ ∀ m ∈ members, m.2.depth ≤ d := by
  induction members with
  | nil => simp [membersDepth]
  | cons m ms ih => rw [membersDepth, Nat.max_le, ih, List.forall_mem_cons]

theorem depth_arr_le {items : List Json} {d : Nat} :
    (arr items).depth ≤ d ↔ ∃ n, d = n + 1 ∧ ∀ x ∈ items, x.depth ≤ n := by
  rw [depth]
  constructor
  · intro h
    exact ⟨d - 1, by omega, itemsDepth_le.1 (by omega)⟩
  · rintro ⟨n, rfl, h⟩
    exact Nat.succ_le_succ (itemsDepth_le.2 h)

theorem depth_obj_le {members : List (Option String × Json)} {d : Nat} :
    (obj members).depth ≤ d ↔ ∃ n, d = n + 1 ∧ ∀ m ∈ members, m.2.depth ≤ n := by
  rw [depth]
  constructor
  · intro h
    exact ⟨d - 1, by omega, membersDepth_le.1 (by omega)⟩
  · rintro ⟨n, rfl, h⟩
    exact Nat.succ_le_succ (membersDepth_le.2 h)

theorem depth_record_le {members : List (String × Json)} {d : Nat} :
    (record members).depth ≤ d ↔ ∃ n, d = n + 1 ∧ ∀ m ∈ members, m.2.depth ≤ n := by
  simp only [record, depth_obj_le, List.forall_mem_map]

theorem depth_tagged_le {name : String} {v : Json} {d : Nat} :
    (tagged name v).depth ≤ d ↔ ∃ n, d = n + 1 ∧ v.depth ≤ n := by
  simp only [tagged, depth_obj_le, List.forall_mem_singleton]

/-! ## Encodings -/

/-- A proper value, which `read?` takes for `a` if it may open as many levels as there are. -/
structure Encodes {α : Type} (read? : Nat → Json → Option α) (j : Json) (a : α) : Prop where
  proper : j.Proper
  reads : ∀ d, j.depth ≤ d → read? d j = some a

namespace Encodes

variable {α : Type} {read? : Nat → Json → Option α} {a : α} {name : String} {v : Json}
  {members : List (String × Json)}

theorem tagged (hv : v.Proper) (h : ∀ d, v.depth ≤ d → read? (d + 1) (.tagged name v) = some a) :
    Encodes read? (.tagged name v) a where
  proper := by
    have hmembers : ∀ m ∈ [(name, v)], m.2.Proper := by simpa using hv
    exact .obj hmembers
  reads d hd := by
    obtain ⟨n, rfl, hn⟩ := depth_tagged_le.1 hd
    exact h n hn

theorem record (hmembers : ∀ m ∈ members, m.2.Proper)
    (h : ∀ d, (∀ m ∈ members, m.2.depth ≤ d) → read? (d + 1) (.record members) = some a) :
    Encodes read? (.record members) a where
  proper := .obj hmembers
  reads d hd := by
    obtain ⟨n, rfl, hn⟩ := depth_record_le.1 hd
    exact h n hn

theorem variant (hmembers : ∀ m ∈ members, m.2.Proper)
    (h : ∀ d, (∀ m ∈ members, m.2.depth ≤ d) →
      read? (d + 2) (.tagged name (.record members)) = some a) :
    Encodes read? (.tagged name (.record members)) a := by
  apply tagged (.obj hmembers)
  intro d hd
  obtain ⟨n, rfl, hn⟩ := depth_record_le.1 hd
  exact h n hn

theorem mapM_map {toJson : α → Json} {as : List α} {d : Nat}
    (h : ∀ a ∈ as, read? d (toJson a) = some a) : (as.map toJson).mapM (read? d) = some as := by
  induction as with
  | nil => rfl
  | cons a as ih =>
    obtain ⟨ha, has⟩ := List.forall_mem_cons.1 h
    rw [List.map_cons, List.mapM_cons, ha, ih has]
    rfl

/-- An array encodes a list if its items encode the elements. -/
theorem arr {toJson : α → Json} {as : List α} {readAll? : Nat → Json → Option (List α)}
    (hread : ∀ d items, readAll? (d + 1) (.arr items) = items.mapM (read? d))
    (h : ∀ a ∈ as, Encodes read? (toJson a) a) : Encodes readAll? (.arr (as.map toJson)) as where
  proper := .arr (List.forall_mem_map.2 fun a ha => (h a ha).proper)
  reads d hd := by
    obtain ⟨n, rfl, hn⟩ := depth_arr_le.1 hd
    rw [hread]
    exact mapM_map fun a ha => (h a ha).reads n (hn _ (List.mem_map_of_mem ha))

/-- A record of one list encodes what is read from the list. -/
theorem list {β : Type} {toJson : α → Json} {as : List α} {readList? : Nat → Json → Option β} {b : β}
    (h : ∀ a ∈ as, Encodes read? (toJson a) a)
    (hread : ∀ d, (as.map toJson).mapM (read? d) = some as →
      readList? (d + 2) (.record [(name, .arr (as.map toJson))]) = some b) :
    Encodes readList? (.record [(name, .arr (as.map toJson))]) b := by
  have hitems : ∀ j ∈ as.map toJson, j.Proper := List.forall_mem_map.2 fun a ha => (h a ha).proper
  apply record
  · simpa using Proper.arr hitems
  · intro d hd
    obtain ⟨n, rfl, hn⟩ := depth_arr_le.1 (hd _ List.mem_cons_self)
    exact hread n (mapM_map fun a ha => (h a ha).reads n (hn _ (List.mem_map_of_mem ha)))

end Encodes

/-! ## Records and numbers -/

theorem mapM_keyed (members : List (String × Json)) :
    (keyed members).mapM (·.1) = some (members.map Prod.fst) := by
  induction members with
  | nil => rfl
  | cons m ms ih =>
    rw [keyed, List.map_cons, List.mapM_cons]
    simp only [keyed] at ih
    rw [ih]
    rfl

theorem lookup_keyed {members : List (String × Json)} (hnodup : (members.map Prod.fst).Nodup)
    {m : String × Json} (hm : m ∈ members) : (keyed members).lookup (some m.1) = some m.2 := by
  induction members with
  | nil => cases hm
  | cons p ms ih =>
    obtain ⟨hp, hnodup⟩ := List.nodup_cons.1 hnodup
    rw [keyed, List.map_cons, List.lookup_cons]
    rcases List.mem_cons.1 hm with rfl | hm
    · simp
    · have hne : (some m.1 == some p.1) = false := by
        apply beq_false_of_ne
        intro h
        exact hp (Option.some.inj h ▸ List.mem_map_of_mem hm)
      simp only [hne]
      exact ih hnodup hm

/-- The fields of a record are found by their names. -/
theorem fields?_record {members : List (String × Json)} {names : List String}
    (hnames : members.map Prod.fst = names) (hnodup : names.Nodup) :
    (record members).fields? names = some (members.map fun m => some m.2) := by
  subst hnames
  have hcount : (members.map Prod.fst).any (fun name => 1 < (members.map Prod.fst).count name) =
      false := by
    apply List.any_eq_false.2
    intro name _
    have hle := List.nodup_iff_count.1 hnodup name
    simpa using hle
  have hlookup : (members.map Prod.fst).map (fun name => (keyed members).lookup (some name)) =
      members.map fun m => some m.2 := by
    rw [List.map_map]
    exact List.map_congr_left fun m hm => lookup_keyed hnodup hm
  show Option.bind ((keyed members).mapM fun m => m.1) _ = _
  rw [mapM_keyed, Option.bind_some, hcount, ← hlookup]
  rfl

theorem proper_nat (n : Nat) : (nat n).Proper := .num (Numeral.isToken_nat n)

theorem proper_int (n : Int) : (int n).Proper := .num (Numeral.isToken_int n)

theorem word?_nat (n : UInt32) : (nat n.toNat).word? = some n := by
  have hint : (nat n.toNat).integer? = some (n.toNat : Int) := Numeral.toInt?_nat n.toNat
  have hlt := n.toNat_lt
  have hrange : 0 ≤ (n.toNat : Int) ∧ (n.toNat : Int) < 4294967296 := by omega
  rw [word?, hint]
  rw [Option.bind_eq_bind, Option.bind_some, if_pos hrange, Int.toNat_natCast, UInt32.ofNat_toNat]

theorem int64?_int (n : Int64) : (int n.toInt).int64? = some n := by
  have hint : (int n.toInt).integer? = some n.toInt := Numeral.toInt?_int n.toInt
  have hle := n.le_toInt
  have hlt := n.toInt_lt
  have hrange : -9223372036854775808 ≤ n.toInt ∧ n.toInt < 9223372036854775808 := by omega
  rw [int64?, hint]
  simp only [Option.bind_eq_bind, Option.bind_some, if_pos hrange, Int64.ofInt_toInt]

theorem encodes_nat (n : UInt32) : Encodes (fun _ => word?) (nat n.toNat) n :=
  ⟨proper_nat _, fun _ _ => word?_nat n⟩

end Json

theorem Binary64.proper_toJson {x : Binary64} (hx : x.isFinite = true) : x.toJson.Proper := by
  rw [toJson, if_pos hx]
  exact .num (NumberLayout.isToken_render hx)

theorem Binary64.binary64?_toJson {x : Binary64} (hx : x.isFinite = true) :
    x.toJson.binary64? = some x := by
  rw [toJson, if_pos hx]
  exact NumberLayout.toBinary64?_render hx

theorem SymbolId.encodes_listJson (ids : List SymbolId) :
    Json.Encodes SymbolId.listOfJson? (SymbolId.listJson ids) ids :=
  .arr (fun _ _ => rfl) fun id _ => Json.encodes_nat id

end ScriptC
