import KyNotes.Bridge.Append
import KyNotes.Bridge.RoundTrip
import KyNotes.Lib.JsonRead
import KyNotes.Lib.JsSame

/-!
# What the browser reads of an encoded value

A value that Go decoded and encoded again (`reencode`) is read by the browser as the value it was, but for the order of
members, exactly where no string and no key has a lone surrogate (`same_reencode_iff`). Its properties of an ASCII name are
there in any case, reencoded (`prop_val`, `prop_reencode`).
-/

namespace KyNotes.Bridge.Markdown

open Cleanup.Stored JsonText
open Js (Value Numbers fromMembers stringOf)

/-! ## Texts -/

/-- The string of the browser. -/
def units (s : Text) : List UInt16 := s.flatMap Utf16.units

theorem units_injective : Function.Injective units := Utf16.flatMap_units_injective

/-- The characters of a code. -/
theorem codes_units (c : Char) : (Utf16.units c).map UInt16.toNat = unitCodes c.toNat := by
  have hvalid : c.toNat < 0xd800 ∨ 0xdfff < c.toNat ∧ c.toNat < 0x110000 := c.valid
  unfold Utf16.units unitCodes
  split
  · simp
    omega
  · simp only [List.map_cons, List.map_nil, UInt16.toNat_ofNat', List.cons.injEq, and_true]
    omega

theorem units_codes (c : Char) : (unitCodes c.toNat).map UInt16.ofNat = Utf16.units c := by
  rw [← codes_units, List.map_map]
  exact (List.map_congr_left fun u _ => UInt16.ofNat_toNat).trans (List.map_id _)

theorem isValidChar_of_mem {s : Text} : ∀ n ∈ s.map Char.toNat, n.isValidChar :=
  List.forall_mem_map.mpr fun c _ => c.valid

section Strings

/-- A key or a string, as the browser reads it. -/
def key (s : List Item) : List UInt16 := stringOf (unitItems s)

theorem key_append (s t : List Item) : key (s ++ t) = key s ++ key t := by
  rw [key, unitItems_append, stringOf, List.map_append]
  rfl

theorem key_char (c : Char) : key [.char c.toNat] = Utf16.units c := by
  have hkey : key [.char c.toNat] = (unitCodes c.toNat).map UInt16.ofNat := by
    simp [key, unitItems, Item.units, stringOf, Js.itemUnit]
  rw [hkey, units_codes]

theorem key_plain (s : Text) : key (plain s) = units s := by
  induction s with
  | nil => rfl
  | cons c s ih =>
    have hplain : plain (c :: s) = [plainItem c] ++ plain s := rfl
    have hunits : units (c :: s) = Utf16.units c ++ units s := rfl
    rw [hplain, key_append, ih, hunits]
    rcases plainItem_cases c with ⟨hitem, -⟩ | ⟨hitem, hlt⟩
    · rw [hitem, key_char]
    · have hunit : key [.unit c.toNat] = [UInt16.ofNat c.toNat] := rfl
      rw [hitem, hunit, Utf16.units, if_pos (by omega)]

/-- The first unit of a character is no low surrogate. -/
theorem units_head (c : Char) : ∃ u us, Utf16.units c = u :: us ∧ Utf16.isLow u = false := by
  have hvalid : c.toNat < 0xd800 ∨ 0xdfff < c.toNat ∧ c.toNat < 0x110000 := c.valid
  unfold Utf16.units
  split
  · refine ⟨_, _, rfl, ?_⟩
    simp only [Utf16.isLow, UInt16.toNat_ofNat', decide_eq_false_iff_not]
    omega
  · refine ⟨_, _, rfl, ?_⟩
    simp only [Utf16.isLow, UInt16.toNat_ofNat', decide_eq_false_iff_not]
    omega

theorem chars_cons {i : Item} {s : List Item} (h : Chars (i :: s)) : Chars s := fun c hc => h c (List.mem_cons_of_mem i hc)

/-- Both languages read the same characters. -/
theorem goString_eq : ∀ {s : List Item}, Chars s → goString s = Utf16.scalars (key s)
  | [], _ => rfl
  | .char c :: s, h => by
    have hc : (Char.ofNat c).toNat = c := toNat_ofNat (h c List.mem_cons_self)
    have hkey : key (.char c :: s) = Utf16.units (Char.ofNat c) ++ key s := by
      rw [← List.singleton_append, key_append, ← hc, key_char, hc]
    rw [hkey, Utf16.scalars_units, goString, goString_eq (chars_cons h)]
  | [.unit u], _ => rfl
  | .unit u :: .char c :: s, h => by
    have hc : (Char.ofNat c).toNat = c := toNat_ofNat (h c (List.mem_cons_of_mem _ List.mem_cons_self))
    have hkey : key (.char c :: s) = Utf16.units (Char.ofNat c) ++ key s := by
      rw [← List.singleton_append, key_append, ← hc, key_char, hc]
    have hunit : key (.unit u :: .char c :: s) = UInt16.ofNat u :: key (.char c :: s) := rfl
    obtain ⟨v, vs, hv, hlow⟩ := units_head (Char.ofNat c)
    rw [goString, goString_eq (chars_cons h), hunit, hkey, hv, List.cons_append, Utf16.scalars, if_neg]
    rintro ⟨-, hl⟩
    rw [hlow] at hl
    exact Bool.false_ne_true hl
  | .unit u :: .unit v :: s, h => by
    have hunits : key (.unit u :: .unit v :: s) = UInt16.ofNat u :: UInt16.ofNat v :: key s := rfl
    have hunit : key (.unit v :: s) = UInt16.ofNat v :: key s := rfl
    rw [hunits, Utf16.scalars, goString]
    split
    · rw [goString_eq (chars_cons (chars_cons h))]
    · rw [goString_eq (chars_cons h), hunit]

theorem key_goString {s : List Item} (h : Chars s) : key (plain (goString s)) = Utf16.toWellFormed (key s) := by
  rw [key_plain, goString_eq h]
  rfl

end Strings

/-! ## Values -/

section Values

variable (N : Numbers)

/-- What the browser reads. -/
def val (t : Tree) : Value := Js.ofTree N t.units

/-- The browser reads the text that Go reads. -/
theorem parse_units_text (s : Text) : Js.parse N (units s) = (parse (s.map Char.toNat)).map (val N) := by
  have hcodes : (units s).map UInt16.toNat = (s.map Char.toNat).flatMap unitCodes := by
    rw [units, List.map_flatMap, List.flatMap_map]
    exact congrArg (List.flatMap · s) (funext codes_units)
  rw [Js.parse, hcodes, parse_units, Option.map_map]
  rfl

theorem parse_marshal {t : Tree} (h : Setup.Written t) : Js.parse N (units (marshal t)) = some (val N t) := by
  have hcodes : (marshal t).map Char.toNat = t.print := by
    rw [marshal, List.map_map]
    exact (List.map_congr_left fun n hn => h.2 n hn).trans (List.map_id _)
  have hread := @parse_print t h.1 [] fun _ hc => absurd hc List.not_mem_nil
  rw [List.append_nil] at hread
  rw [parse_units_text, hcodes, hread]
  rfl

theorem ofValues_eq_map (vs : List Tree) : Js.ofValues N vs = vs.map (Js.ofTree N) := by
  induction vs with
  | nil => rfl
  | cons v vs ih => rw [Js.ofValues, ih, List.map_cons]

theorem ofMembers_eq_map (ms : List (List Item × Tree)) :
    Js.ofMembers N ms = ms.map fun m => (stringOf m.1, Js.ofTree N m.2) := by
  induction ms with
  | nil => rfl
  | cons m ms ih => rw [Js.ofMembers, ih, List.map_cons]

theorem val_arr (vs : List Tree) : val N (.arr vs) = .arr (vs.map (val N)) := by
  rw [val, Tree.units, Js.ofTree, ofValues_eq_map, unitValues_eq_map, List.map_map]
  rfl

theorem val_obj (ms : List (List Item × Tree)) :
    val N (.obj ms) = .obj (fromMembers (ms.map fun m => (key m.1, val N m.2))) := by
  rw [val, Tree.units, Js.ofTree, ofMembers_eq_map, unitMembers_eq_map, List.map_map]
  rfl

theorem reencodeValues_eq_map (vs : List Tree) : reencodeValues vs = vs.map reencode := by
  induction vs with
  | nil => rfl
  | cons v vs ih => rw [reencodeValues, ih, List.map_cons]

theorem reencodeMembers_eq_map (ms : List (List Item × Tree)) :
    reencodeMembers ms = ms.map fun m => (goString m.1, reencode m.2) := by
  induction ms with
  | nil => rfl
  | cons m ms ih => rw [reencodeMembers, ih, List.map_cons]

theorem val_reencode_arr (vs : List Tree) : val N (reencode (.arr vs)) = .arr (vs.map fun v => val N (reencode v)) := by
  rw [reencode, val_arr, reencodeValues_eq_map, List.map_map]
  rfl

theorem val_reencode_obj (ms : List (List Item × Tree)) : val N (reencode (.obj ms)) =
    .obj (fromMembers ((mapOf (ms.map fun m => (goString m.1, reencode m.2))).map fun m => (units m.1, val N m.2))) := by
  rw [reencode, val_obj, reencodeMembers_eq_map, List.map_map]
  simp only [Function.comp_def, key_plain]

end Values

/-! ## The last of the members with a key -/

section Last

open Json (lastValue)

/-- Where two keys are found by the same members, the same one is the last. -/
theorem lastValue_map {γ κ κ' α β : Type} [DecidableEq κ] [DecidableEq κ'] (f : γ → κ) (f' : γ → κ') (h : γ → α) (g : α → β)
    (k : κ) (k' : κ') : ∀ ms : List γ, (∀ m ∈ ms, f m = k ↔ f' m = k') →
      lastValue (ms.map fun m => (f m, g (h m))) k = (lastValue (ms.map fun m => (f' m, h m)) k').map g
  | [], _ => rfl
  | m :: ms, hiff => by
    obtain ⟨hm, hms⟩ := List.forall_mem_cons.mp hiff
    rw [List.map_cons, List.map_cons, Json.lastValue_cons, Json.lastValue_cons, lastValue_map f f' h g k k' ms hms,
      Option.map_or]
    congr 1
    by_cases hk : f m = k
    · rw [if_pos hk, if_pos (hm.mp hk)]
      rfl
    · rw [if_neg hk, if_neg fun hk' => hk (hm.mpr hk')]
      rfl

theorem mem_mapOf {α : Type} {members : List (Text × α)} {m : Text × α} (h : m ∈ mapOf members) : m ∈ members := by
  obtain ⟨k, -, hk⟩ := List.mem_filterMap.mp h
  obtain ⟨v, hv, rfl⟩ := Option.map_eq_some_iff.mp hk
  exact Json.lastValue_mem hv

theorem lastValue_mapOf {α : Type} (members : List (Text × α)) (k : Text) :
    lastValue (mapOf members) k = lastValue members k := by
  have hlast : ∀ ks : List Text, lastValue (ks.filterMap fun k => (lastValue members k).map fun v => (k, v)) k =
      if k ∈ ks then lastValue members k else none := by
    intro ks
    induction ks with
    | nil => rfl
    | cons k' ks ih =>
      cases hv : lastValue members k' with
      | none =>
        rw [List.filterMap_cons_none (by rw [hv]; rfl), ih]
        by_cases hk : k = k'
        · subst hk
          rw [hv]
          simp
        · simp [hk]
      | some v =>
        rw [List.filterMap_cons_some (by rw [hv]; rfl), Json.lastValue_cons, ih]
        by_cases hk : k' = k
        · subst hk
          rw [if_pos rfl, if_pos List.mem_cons_self, hv]
          split <;> rfl
        · rw [if_neg hk]
          simp [Ne.symm hk]
  rw [mapOf, hlast]
  by_cases hk : k ∈ members.map Prod.fst
  · exact if_pos (List.mem_mergeSort.mpr (List.mem_dedup.mpr hk))
  · have hnone : lastValue members k = none := by
      rw [← Json.lastValue_isSome, Bool.not_eq_true, Option.isSome_eq_false_iff, Option.isNone_iff_eq_none] at hk
      exact hk
    rw [hnone]
    split <;> rfl

end Last

/-! ## Well-formed strings -/

section WellFormed

variable (N : Numbers)

/-- Every string of a tree is well formed. -/
def WellFormedTree (t : Tree) : Prop := t.All (fun _ => True) fun s => Utf16.IsWellFormed (key s)

theorem wellFormed_plain (s : Text) : Utf16.IsWellFormed (key (plain s)) := by
  rw [key_plain]
  exact Utf16.wellFormed_units s

theorem wellFormedTree_arr {vs : List Tree} (h : ∀ v ∈ vs, WellFormedTree v) : WellFormedTree (.arr vs) :=
  (allValues_iff _ _).mpr h

theorem wellFormedTree_obj {ms : List (List Item × Tree)}
    (h : ∀ m ∈ ms, Utf16.IsWellFormed (key m.1) ∧ WellFormedTree m.2) : WellFormedTree (.obj ms) :=
  (allMembers_iff _ _).mpr h

mutual

theorem wellFormed_val : ∀ {t : Tree}, WellFormedTree t → (val N t).WellFormed
  | .null, _ | .bool _, _ | .num _, _ => trivial
  | .str s, h => h
  | .arr vs, h => by
    rw [val_arr]
    exact Js.valuesWellFormed_iff.mpr (List.forall_mem_map.mpr (wellFormed_values h))
  | .obj ms, h => by
    rw [val_obj]
    refine Js.membersWellFormed_iff.mpr fun m hm => ?_
    obtain ⟨m', hm', rfl⟩ := List.mem_map.mp (Js.mem_fromMembers hm)
    exact wellFormed_members h m' hm'

theorem wellFormed_values : ∀ {vs : List Tree}, AllValues (fun _ => True) (fun s => Utf16.IsWellFormed (key s)) vs →
    ∀ v ∈ vs, (val N v).WellFormed
  | [], _ => nofun
  | _ :: _, h => List.forall_mem_cons.mpr ⟨wellFormed_val h.1, wellFormed_values h.2⟩

theorem wellFormed_members : ∀ {ms : List (List Item × Tree)},
    AllMembers (fun _ => True) (fun s => Utf16.IsWellFormed (key s)) ms →
    ∀ m ∈ ms, Utf16.IsWellFormed (key m.1) ∧ (val N m.2).WellFormed
  | [], _ => nofun
  | _ :: _, h => List.forall_mem_cons.mpr ⟨⟨h.1, wellFormed_val h.2.1⟩, wellFormed_members h.2.2⟩

end

mutual

/-- What Go writes is well formed. -/
theorem wellFormed_reencode : ∀ t : Tree, WellFormedTree (reencode t)
  | .null | .bool _ | .num _ => trivial
  | .str s => wellFormed_plain _
  | .arr vs => wellFormedTree_arr (wellFormed_reencodeValues vs)
  | .obj ms => by
    refine wellFormedTree_obj (List.forall_mem_map.mpr fun m hm => ⟨wellFormed_plain _, ?_⟩)
    exact wellFormed_reencodeMembers ms m (mem_mapOf hm)

theorem wellFormed_reencodeValues : ∀ vs : List Tree, ∀ v ∈ reencodeValues vs, WellFormedTree v
  | [] => nofun
  | v :: vs => List.forall_mem_cons.mpr ⟨wellFormed_reencode v, wellFormed_reencodeValues vs⟩

theorem wellFormed_reencodeMembers : ∀ ms : List (List Item × Tree), ∀ m ∈ reencodeMembers ms, WellFormedTree m.2
  | [] => nofun
  | m :: ms => List.forall_mem_cons.mpr ⟨wellFormed_reencode m.2, wellFormed_reencodeMembers ms⟩

end

/-! ## What is encoded can be read -/

theorem written_num {w : List ℕ} (h : isNumber w = true) : Setup.Written (.num w) := by
  refine ⟨h, AreChars.ascii fun n hn => ?_⟩
  have hnumeric := (isNumber_numeric h).1 n hn
  simp only [isNumeric, isDigit, decide_eq_true_eq] at hnumeric
  omega

mutual

theorem written_reencode : ∀ {t : Tree}, t.Good → Setup.Written (reencode t)
  | .null, _ => ⟨trivial, AreChars.ascii (by decide)⟩
  | .bool true, _ => ⟨trivial, AreChars.ascii (by decide)⟩
  | .bool false, _ => ⟨trivial, AreChars.ascii (by decide)⟩
  | .num w, h => written_num h
  | .str s, _ => written_plain _
  | .arr vs, h => Setup.written_arr (written_reencodeValues h)
  | .obj ms, h => Setup.written_obj (List.forall_mem_map.mpr fun m hm =>
      ⟨written_plain _, written_reencodeMembers h m (mem_mapOf hm)⟩)

theorem written_reencodeValues : ∀ {vs : List Tree}, AllValues (fun w => isNumber w = true) Chars vs →
    ∀ v ∈ reencodeValues vs, Setup.Written v
  | [], _ => nofun
  | _ :: _, h => List.forall_mem_cons.mpr ⟨written_reencode h.1, written_reencodeValues h.2⟩

theorem written_reencodeMembers : ∀ {ms : List (List Item × Tree)}, AllMembers (fun w => isNumber w = true) Chars ms →
    ∀ m ∈ reencodeMembers ms, Setup.Written m.2
  | [], _ => nofun
  | _ :: _, h => List.forall_mem_cons.mpr ⟨written_reencode h.2.1, written_reencodeMembers h.2.2⟩

end

end WellFormed

/-! ## The same value -/

section Same

variable (N : Numbers)

open Json (lastValue)

theorem lookup_val (ms : List (List Item × Tree)) (k : List UInt16) :
    (fromMembers (ms.map fun m => (key m.1, val N m.2))).lookup k = lastValue (ms.map fun m => (key m.1, val N m.2)) k :=
  Js.lookup_fromMembers k

/-- A property of what was encoded. -/
theorem lookup_reencode (ms : List (List Item × Tree)) (k : Text) :
    (fromMembers ((mapOf (ms.map fun m => (goString m.1, reencode m.2))).map fun m => (units m.1, val N m.2))).lookup
      (units k) = (lastValue (ms.map fun m => (goString m.1, m.2)) k).map fun t => val N (reencode t) := by
  have hunits : ∀ m ∈ mapOf (ms.map fun m => (goString m.1, reencode m.2)), units m.1 = units k ↔ m.1 = k :=
    fun m _ => units_injective.eq_iff
  have hreencode := lastValue_map (fun m : List Item × Tree => goString m.1) (fun m => goString m.1) Prod.snd reencode k k ms
    fun m _ => Iff.rfl
  have hval := lastValue_map (fun m : Text × Tree => units m.1) Prod.fst Prod.snd (val N) (units k) k _ hunits
  rw [Js.lookup_fromMembers, hval, List.map_id', lastValue_mapOf, hreencode, Option.map_map]
  rfl

theorem mem_keys {ms : List (List Item × Tree)} {m : List Item × Tree} (h : m ∈ ms) :
    key m.1 ∈ (fromMembers (ms.map fun m => (key m.1, val N m.2))).map Prod.fst := by
  rw [Js.mem_keys_iff]
  refine Option.isSome_iff_exists.mp ?_
  rw [lookup_val, Json.lastValue_isSome, List.map_map]
  exact List.mem_map_of_mem h

mutual

theorem same_reencode : ∀ {t : Tree}, t.Good → (val N t).WellFormed → (val N t).Same (val N (reencode t))
  | .null, _, _ => rfl
  | .bool _, _, _ => rfl
  | .num _, _, _ => rfl
  | .str s, h, hw => by
    have hkey : key (plain (goString s)) = key s := (key_goString h).trans hw
    exact congrArg Value.str hkey
  | .arr vs, h, hw => by
    rw [val_arr] at hw ⊢
    exact ⟨_, val_reencode_arr N vs, same_reencodeValues h (Js.valuesWellFormed_iff.mp hw)⟩
  | .obj ms, h, hw => by
    rw [val_obj] at hw ⊢
    have hmembers := Js.membersWellFormed_iff.mp hw
    have hgood := (allMembers_iff _ _).mp h
    have hkeys : ∀ m ∈ ms, ∀ g : Text, key m.1 = units g ↔ goString m.1 = g := by
      intro m hm g
      obtain ⟨m', hm', hk⟩ := List.mem_map.mp (mem_keys N hm)
      have hwf : units (Utf16.scalars (key m.1)) = key m.1 := hk ▸ (hmembers m' hm').1
      rw [goString_eq (hgood m hm).1]
      constructor
      · exact fun heq => units_injective (hwf.trans heq)
      · rintro rfl
        exact hwf.symm
    refine ⟨_, val_reencode_obj N ms, ?_, Js.sameMembers_iff.mpr ?_⟩
    · intro k hk
      obtain ⟨m', hm', rfl⟩ := List.mem_map.mp hk
      obtain ⟨m, hmap, rfl⟩ := List.mem_map.mp (Js.mem_fromMembers hm')
      obtain ⟨m, hm, rfl⟩ := List.mem_map.mp (mem_mapOf hmap)
      rw [← (hkeys m hm _).mpr rfl]
      exact mem_keys N hm
    · rintro ⟨k, x⟩ hx
      have hk : k = units (Utf16.scalars k) := (hmembers _ hx).1.symm
      have hlookup := (Js.lookup_eq_some_iff (Js.keys_fromMembers _).1).mpr hx
      have hlast := lastValue_map (fun m : List Item × Tree => key m.1) (fun m => goString m.1) Prod.snd (val N) k
        (Utf16.scalars k) ms fun m hm => by
          conv_lhs => rw [hk]
          exact hkeys m hm _
      rw [lookup_val, hlast] at hlookup
      obtain ⟨u, hu, rfl⟩ := Option.map_eq_some_iff.mp hlookup
      obtain ⟨m, hm, hmu⟩ := List.mem_map.mp (Json.lastValue_mem hu)
      obtain rfl : m.2 = u := congrArg Prod.snd hmu
      refine ⟨val N (reencode m.2), ?_, same_reencodeMembers h m hm (hmembers _ hx).2⟩
      rw [hk, lookup_reencode, hu]
      rfl

theorem same_reencodeValues : ∀ {vs : List Tree}, AllValues (fun w => isNumber w = true) Chars vs →
    (∀ v ∈ vs.map (val N), v.WellFormed) → Js.SameValues (vs.map (val N)) (vs.map fun v => val N (reencode v))
  | [], _, _ => rfl
  | _ :: _, h, hw => by
    obtain ⟨hv, hvs⟩ := List.forall_mem_cons.mp hw
    exact ⟨_, _, rfl, same_reencode h.1 hv, same_reencodeValues h.2 hvs⟩

theorem same_reencodeMembers : ∀ {ms : List (List Item × Tree)}, AllMembers (fun w => isNumber w = true) Chars ms →
    ∀ m ∈ ms, (val N m.2).WellFormed → (val N m.2).Same (val N (reencode m.2))
  | [], _ => nofun
  | _ :: _, h => List.forall_mem_cons.mpr ⟨same_reencode h.2.1, same_reencodeMembers h.2.2⟩

end

theorem same_reencode_iff {t : Tree} (h : t.Good) : (val N t).Same (val N (reencode t)) ↔ (val N t).WellFormed :=
  ⟨fun hs => Js.wellFormed_of_same hs (wellFormed_val N (wellFormed_reencode t)), same_reencode N h⟩

end Same

/-! ## Properties -/

section Props

open Json (lastValue)
open Document (prop stringProp itemId isItemId finiteOf clamp elements isRecord)

variable (N : Numbers) {t : Tree} {name : String}

/-- No replaced character is in a name. -/
def Proper (name : String) : Prop := '\uFFFD' ∉ name.toList

instance (name : String) : Decidable (Proper name) := inferInstanceAs (Decidable (_ ∉ _))

theorem prop_val (h : t.Good) (hname : Proper name) : prop name (val N t) = (get t name).map (val N) := by
  cases t with
  | obj ms =>
    have hgood := (allMembers_iff _ _).mp h
    have hlast := lastValue_map (fun m : List Item × Tree => key m.1) (fun m => goString m.1) Prod.snd (val N)
      (units name.toList) name.toList ms fun m hm => by
        rw [goString_eq (hgood m hm).1, Utf16.scalars_eq_iff hname]
        rfl
    rw [val_obj]
    exact (lookup_val N ms _).trans hlast
  | null | bool | num | str => rfl
  | arr vs => rw [val_arr]; rfl

theorem prop_reencode : prop name (val N (reencode t)) = (get t name).map fun v => val N (reencode v) := by
  cases t with
  | obj ms =>
    rw [val_reencode_obj]
    exact lookup_reencode N ms name.toList
  | null | bool | num | str => rfl
  | arr vs => rw [val_reencode_arr]; rfl

end Props

end KyNotes.Bridge.Markdown
