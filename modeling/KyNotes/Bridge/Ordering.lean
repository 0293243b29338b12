import KyNotes.Bridge.Cache
import KyNotes.Outline.Reorder

/-!
# The order of pages in the bridge and in the browser

`ordered` and `endOrder` of the bridge (`cmd/kynotes-mcp/notebook.go`) and what the browser has for them
(`web/src/pages.ts`). Both compare the same ranks (`compareOrdered_shows`), and the loop of `keyAfter` is that of `keyBetween`
above an open end (`keyAfterLoop_eq`).

IDs are object IDs, as the server mints them.
-/

namespace KyNotes.Outline

/-! ## The browser -/

/-- `QUICK_NOTES`. -/
def quickNotes : String := "quick"

def sortedSections (sections : List Placed) : List Placed := sorted sections

def pagesInSection (pages sections : List Placed) (sectionID : String) : List Placed :=
  sorted (pages.filter fun page =>
    if sectionID = quickNotes then !(page.sectionId.any fun s => s ≠ "" ∧ (sections.map Placed.id).contains s)
    else page.sectionId = some sectionID)

def endOrder (list : List Placed) : Except Thrown String :=
  keyBetween (list.foldl (fun max item =>
    match item.key with
    | some k => if max.all fun m => m < k then some k else max
    | none => max) none) none

end KyNotes.Outline

namespace KyNotes.Bridge

open Content Outline Web

/-! ## The bridge -/

/-- `inSection`; the section `""` is Quick Notes. -/
def inSection (sections pages : List Entry) (sectionID : JsString) : List Entry :=
  (pages.filter fun p =>
    let known := sections.any fun s => s.id = Utf16.ofText p.payload.sectionId
    sectionID = [] ∧ !known ∨ sectionID ≠ [] ∧ Utf16.ofText p.payload.sectionId = sectionID).mergeSort
      fun a b => compareOrdered a b ≤ 0

def ordered (sections pages : List Entry) : List Entry :=
  sections.flatMap (fun s => inSection sections pages s.id) ++ inSection sections pages []

/-- The loop of `keyAfter`, at a place of the key. -/
def keyAfterLoop (out : List Char) : List Char → Except Thrown (List Char)
  | [] => if out.length + 1 ≤ maxOrderKey then .ok (out ++ digitAt 1) else .error .limitReached
  | c :: cs =>
    let low := indexOf (some c)
    if low + 1 < 36 then
      if (out ++ digitAt (low + 1)).length ≤ maxOrderKey then .ok (out ++ digitAt (low + 1)) else .error .limitReached
    else keyAfterLoop (out ++ digitAt low) cs

def keyAfter (last : String) : Except Thrown String :=
  if last = "" then .ok "i" else (keyAfterLoop [] last.toList).map String.ofList

def endOrder (list : List Entry) : Except Thrown String :=
  keyAfter (list.foldl (fun last e => if last < e.payload.order then e.payload.order else last) "")

/-! ## One rank -/

/-- The entry of what the browser has. -/
structure Shows (e : Entry) (p : Placed) : Prop where
  id : e.id = Utf16.ofText p.id
  order : e.payload.order = p.order.getD ""
  sectionId : e.payload.sectionId = p.sectionId.getD ""

/-- The digits of an object ID are ASCII. -/
theorem ascii_of_objectID {s : String} (h : objectID s = true) : ∀ c ∈ s.toList, c.toNat < 128 := by
  obtain ⟨hpre, -, hdigits⟩ : s.toList.take 4 = ['o', 'b', 'j', '_'] ∧ (s.toList.drop 4).length = 26 ∧
      (s.toList.drop 4).all idDigit = true := of_decide_eq_true h
  have hdigit : ∀ c : Char, idDigit c = true → c.toNat < 128 := by
    intro c hc
    have hbound : ∀ d : Char, c ≤ d → c.toNat ≤ d.toNat := fun d hd => hd
    simp only [idDigit, decide_eq_true_eq] at hc
    rcases hc with ⟨-, hc⟩ | ⟨-, hc⟩ | rfl | rfl | rfl | rfl | ⟨-, hc⟩ | ⟨-, hc⟩
    · exact (hbound _ hc).trans_lt (by decide)
    · exact (hbound _ hc).trans_lt (by decide)
    · decide
    · decide
    · decide
    · decide
    · exact (hbound _ hc).trans_lt (by decide)
    · exact (hbound _ hc).trans_lt (by decide)
  intro c hc
  rw [← List.take_append_drop 4 s.toList, hpre] at hc
  rcases List.mem_append.mp hc with hc | hc
  · have hall : ['o', 'b', 'j', '_'].all (fun c => c.toNat < 128) = true := by decide
    exact of_decide_eq_true (List.all_eq_true.mp hall c hc)
  · exact hdigit c (List.all_eq_true.mp hdigits c hc)

theorem units_ascii {s : String} (h : ∀ c ∈ s.toList, c.toNat < 128) :
    (Utf16.ofText s).map UInt16.toNat = s.toList.map Char.toNat := by
  rw [Utf16.ofText]
  generalize s.toList = cs at h ⊢
  induction cs with
  | nil => rfl
  | cons c cs ih =>
    rw [List.forall_mem_cons] at h
    have hunits : Utf16.units c = [UInt16.ofNat c.toNat] := if_pos (h.1.trans (by decide))
    rw [List.flatMap_cons, hunits, List.map_append, ih h.2]
    have hnat : (UInt16.ofNat c.toNat).toNat = c.toNat := by
      rw [UInt16.toNat_ofNat']
      exact Nat.mod_eq_of_lt (h.1.trans (by decide))
    rw [List.map_cons, hnat]
    rfl

theorem codes_lt : ∀ l m : List Char, l.map Char.toNat < m.map Char.toNat ↔ l < m
  | _, [] => iff_of_false (List.not_lt_nil _) (List.not_lt_nil _)
  | [], d :: m => iff_of_true (List.nil_lt_cons _ _) (List.nil_lt_cons _ _)
  | c :: l, d :: m => by
    rw [List.map_cons, List.map_cons, List.cons_lt_cons_iff, List.cons_lt_cons_iff, codes_lt l m, Char.toNat_inj]
    rfl

/-- The order of the code units of ASCII texts is that of the texts. -/
theorem units_lt {s t : String} (hs : ∀ c ∈ s.toList, c.toNat < 128) (ht : ∀ c ∈ t.toList, c.toNat < 128) :
    (Utf16.ofText s).map UInt16.toNat < (Utf16.ofText t).map UInt16.toNat ↔ s < t := by
  rw [units_ascii hs, units_ascii ht, codes_lt, String.lt_iff_toList_lt]

theorem key_getD (p : Placed) : p.key.getD "" = p.order.getD "" ∧ (p.key = none ↔ p.order.getD "" = "") := by
  unfold Placed.key
  cases p.order with
  | none => exact ⟨rfl, iff_of_true rfl rfl⟩
  | some k =>
    by_cases hk : k = ""
    · subst hk
      exact ⟨rfl, iff_of_true rfl rfl⟩
    · have hkey : (some k).filter (fun k => decide (k ≠ "")) = some k := by simp [hk]
      rw [hkey]
      exact ⟨rfl, iff_of_false nofun hk⟩

/-- Both compare alike. -/
theorem compareOrdered_shows {e e' : Entry} {p p' : Placed} (h : Shows e p) (h' : Shows e' p') (hid : objectID p.id = true)
    (hid' : objectID p'.id = true) : compareOrdered e e' = Outline.compareOrdered p p' := by
  obtain ⟨hkey, hnone⟩ := key_getD p
  obtain ⟨hkey', hnone'⟩ := key_getD p'
  have hlt := units_lt (ascii_of_objectID hid) (ascii_of_objectID hid')
  have hgt := units_lt (ascii_of_objectID hid') (ascii_of_objectID hid)
  simp only [compareOrdered, h.id, h'.id, h.order, h'.order, hlt, hgt]
  unfold Outline.compareOrdered
  cases hp : p.key with
  | none =>
    have ho := hnone.mp hp
    cases hp' : p'.key with
    | none => simp [ho, hnone'.mp hp']
    | some k' =>
      have ho' : p'.order.getD "" ≠ "" := fun h => by rw [hnone'.mpr h] at hp'; cases hp'
      simp [ho, ho']
  | some k =>
    have ho : p.order.getD "" ≠ "" := fun h => by rw [hnone.mpr h] at hp; cases hp
    have hk : p.order.getD "" = k := by rw [← hkey, hp]; rfl
    cases hp' : p'.key with
    | none => simp [ho, hnone'.mp hp']
    | some k' =>
      have ho' : p'.order.getD "" ≠ "" := fun h => by rw [hnone'.mpr h] at hp'; cases hp'
      have hk' : p'.order.getD "" = k' := by rw [← hkey', hp']; rfl
      rw [hk] at ho ⊢
      rw [hk'] at ho' ⊢
      by_cases heq : k = k' <;> simp [ho, ho', heq]

/-! ## Keys -/

theorem pick_above (before : List Char) (lo : Int) : pick (some before) none lo 36 = lo + 1 := if_pos ⟨nofun, rfl⟩

/-- The loop of `keyBetween` above an open end is that of `keyAfter`. -/
theorem keyAfterLoop_eq {a : List Char} (ha : ∀ c ∈ a, orderDigit c = true) : ∀ {n i : ℕ} (out : List Char),
    a.length + 1 ≤ n + i → 1 ≤ n → keyLoop maxOrderKey (some a) none n i out none = keyAfterLoop out (a.drop i)
  | n + 1, i, out, hn, _ => by
    obtain ⟨lo, hlo, hlow, -⟩ := low_spec ha i
    have hne : low a i ≠ 36 := by omega
    have hlimit : ∀ key : List Char, (if maxOrderKey < key.length then Except.error Thrown.limitReached else .ok key) =
        if key.length ≤ maxOrderKey then .ok key else .error .limitReached := by
      intro key
      by_cases h : key.length ≤ maxOrderKey
      · rw [if_pos h, if_neg (Nat.not_lt.mpr h)]
      · rw [if_neg h, if_pos (Nat.lt_of_not_le h)]
    simp only [keyLoop, Option.getD_some, high, Option.elim_none, if_neg hne, pick_above, hlimit]
    by_cases hi : i < a.length
    · have hindex : low a i = indexOf (some a[i]) := by rw [low, if_pos hi, List.getElem?_eq_getElem hi]
      rw [List.drop_eq_getElem_cons hi, keyAfterLoop]
      simp only [hindex, lt_add_one, true_and]
      split
      · rfl
      · exact keyAfterLoop_eq ha _ (by omega) (by omega)
    · have hzero : low a i = 0 := low_of_le (Nat.le_of_not_lt hi)
      rw [List.drop_eq_nil_of_le (Nat.le_of_not_lt hi), keyAfterLoop, hzero, if_pos (by decide)]
      have hdigit : digitAt (0 + 1) = digitAt 1 := rfl
      rw [hdigit, List.length_append]
      rfl

/-- `keyAfter` is `keyBetween` with an open end. -/
theorem keyAfter_eq {key : String} (h : isOrderKey key = true) : keyAfter key = keyBetween (some key) none := by
  obtain ⟨hdigits, l, c, hl, -⟩ := orderKey_iff.1 (orderKey_of_isOrderKey h)
  have hne : key ≠ "" := by
    rintro rfl
    exact absurd hl.symm (by simp)
  have hloop := keyAfterLoop_eq hdigits (n := key.toList.length + 0 + 2) (i := 0) [] (by omega) (by omega)
  rw [keyAfter, if_neg hne, keyBetween, keyBetweenUpTo, Option.any_none, if_neg Bool.false_ne_true]
  exact congrArg (Except.map String.ofList) hloop.symm

theorem keyAfter_empty : keyAfter "" = keyBetween none none := by decide +kernel

theorem empty_lt {k : String} (h : k ≠ "") : "" < k := by
  rw [String.lt_iff_toList_lt]
  cases hk : k.toList with
  | nil => exact absurd (String.toList_eq_nil_iff.mp hk) h
  | cons c cs => exact List.nil_lt_cons _ _

/-- The greatest key, in both conventions for a missing one. -/
theorem last_shows {es : List Entry} {list : List Placed}
    (h : List.Forall₂ (fun e p => e.payload.order = p.order.getD "") es list) (hvalid : Valid list) :
    ∀ (last : String) (max : Option String), last = max.getD "" → (∀ m ∈ max, isOrderKey m = true) →
      ∃ max' : Option String, list.foldl (fun max item => match item.key with
          | some k => if max.all fun m => m < k then some k else max
          | none => max) max = max' ∧
        es.foldl (fun last e => if last < e.payload.order then e.payload.order else last) last = max'.getD "" ∧
        ∀ m ∈ max', isOrderKey m = true := by
  induction h with
  | nil => exact fun _ _ hlast hmax => ⟨_, rfl, hlast, hmax⟩
  | @cons e p es list ho _ ih =>
    intro last max hlast hmax
    have hrest := ih fun x hx => hvalid x (List.mem_cons_of_mem _ hx)
    rw [List.foldl_cons, List.foldl_cons]
    cases horder : p.order with
    | none =>
      have hkey : p.key = none := by rw [Placed.key, horder]; rfl
      have hle : ¬last < e.payload.order := by
        rw [ho, horder, String.lt_iff_toList_lt]
        exact List.not_lt_nil _
      rw [hkey, if_neg hle]
      exact hrest _ _ hlast hmax
    | some k =>
      have hk : isOrderKey k = true := hvalid p List.mem_cons_self k horder
      have hstep : last < e.payload.order ↔ (max.all fun m => m < k) = true := by
        rw [ho, horder, hlast]
        cases max with
        | none => exact iff_of_true (empty_lt (ne_empty_of_isOrderKey hk)) rfl
        | some m => exact decide_eq_true_iff.symm
      rw [key_of_order horder hk]
      by_cases hlt : last < e.payload.order
      · rw [if_pos hlt]
        have hmax' : (if (max.all fun m => m < k) = true then some k else max) = some k := if_pos (hstep.mp hlt)
        simp only [hmax']
        refine hrest _ _ ?_ (fun m hm => ?_)
        · rw [ho, horder]
        · exact Option.some.inj hm ▸ hk
      · rw [if_neg hlt]
        have hmax' : (if (max.all fun m => m < k) = true then some k else max) = max := if_neg fun h => hlt (hstep.mpr h)
        simp only [hmax']
        exact hrest _ _ hlast hmax

theorem endOrder_shows {es : List Entry} {list : List Placed}
    (h : List.Forall₂ (fun e p => e.payload.order = p.order.getD "") es list) (hvalid : Valid list) :
    endOrder es = Outline.endOrder list := by
  obtain ⟨max, hmax, hlast, hkey⟩ := last_shows h hvalid "" none rfl nofun
  rw [endOrder, Outline.endOrder, hmax, hlast]
  cases max with
  | none => exact keyAfter_empty
  | some k => exact keyAfter_eq (hkey k rfl)

/-! ## Pages -/

/-- Sorting what shows the placed sorts the placed. -/
theorem sort_shows {f : Placed → Entry} {l : List Placed} (h : ∀ p ∈ l, Shows (f p) p ∧ objectID p.id = true) :
    ((l.map f).mergeSort fun a b => compareOrdered a b ≤ 0) = (sorted l).map f :=
  (List.map_mergeSort fun p hp p' hp' => by
    rw [compareOrdered_shows (h p hp).1 (h p' hp').1 (h p hp).2 (h p' hp').2]).symm

/-- A section of the bridge, `""` for Quick Notes, and the section of the browser. -/
def SectionIs (id : JsString) (sectionID : String) : Prop :=
  id = [] ∧ sectionID = quickNotes ∨ id ≠ [] ∧ sectionID ≠ quickNotes ∧ id = Utf16.ofText sectionID

section
variable {f g : Placed → Entry} {ps ss : List Placed} {pages sections : List Entry}
  (hpages : ∀ p ∈ ps, Shows (f p) p ∧ objectID p.id = true) (hsections : ∀ s ∈ ss, Shows (g s) s ∧ objectID s.id = true)
  (hps : pages.Perm (ps.map f)) (hss : sections.Perm (ss.map g))

include hsections hss in
/-- Both know the same sections. -/
theorem known_iff (id : String) :
    (sections.any fun s => s.id = Utf16.ofText id) = true ↔ (ss.map Placed.id).contains id = true := by
  rw [List.any_eq_true, List.contains_iff_mem, List.mem_map]
  constructor
  · rintro ⟨s, hs, hid⟩
    obtain ⟨t, ht, rfl⟩ := List.mem_map.mp (hss.mem_iff.mp hs)
    exact ⟨t, ht, Utf16.ofText_injective ((hsections t ht).1.id.symm.trans (of_decide_eq_true hid))⟩
  · rintro ⟨t, ht, rfl⟩
    exact ⟨g t, hss.mem_iff.mpr (List.mem_map_of_mem ht), decide_eq_true (hsections t ht).1.id⟩

include hpages hsections hps hss in
theorem inSection_shows (hn : (ps.map Placed.id).Nodup) {id : JsString} {sectionID : String} (h : SectionIs id sectionID) :
    inSection sections pages id = (pagesInSection ps ss sectionID).map f := by
  have hno : ∀ s ∈ ss, s.id ≠ "" := fun s hs he => by
    have := (hsections s hs).2
    rw [he] at this
    exact absurd this (by decide)
  rw [inSection, pagesInSection]
  set P : Entry → Bool := fun p => _ with hP
  set Q : Placed → Bool := fun page => _ with hQ
  have hpq : ∀ p ∈ ps, P (f p) = Q p := by
    intro p hp
    have hsect := (hpages p hp).1.sectionId
    have hknown := known_iff hsections hss (p.sectionId.getD "")
    rcases h with ⟨rfl, rfl⟩ | ⟨hid, hq, rfl⟩
    · have hany : (sections.any fun s => s.id = Utf16.ofText (f p).payload.sectionId) =
          p.sectionId.any fun s => s ≠ "" ∧ (ss.map Placed.id).contains s := by
        rw [hsect, Bool.eq_iff_iff, hknown]
        cases hs : p.sectionId with
        | none =>
          refine iff_of_false (fun h => ?_) nofun
          obtain ⟨s, hmem, he⟩ := List.mem_map.mp (List.contains_iff_mem.mp h)
          exact hno s hmem he
        | some id =>
          rw [Option.any_some, decide_eq_true_iff]
          refine ⟨fun h => ⟨?_, h⟩, fun h => h.2⟩
          rintro rfl
          obtain ⟨s, hmem, he⟩ := List.mem_map.mp (List.contains_iff_mem.mp h)
          exact hno s hmem he
      simp only [hP, hQ, hany]
      simp
    · have hne : sectionID ≠ "" := by
        rintro rfl
        exact hid rfl
      have heq : Utf16.ofText (p.sectionId.getD "") = Utf16.ofText sectionID ↔ p.sectionId = some sectionID := by
        rw [Utf16.ofText_injective.eq_iff]
        cases p.sectionId with
        | none => exact iff_of_false (Ne.symm hne) nofun
        | some id => exact Option.some_inj.symm
      simp only [hP, hQ, hsect, heq, if_neg hq]
      simp [hid]
  have hfilter : (ps.map f).filter P = (ps.filter Q).map f := by
    rw [List.filter_map]
    exact congrArg (List.map f) (List.filter_congr fun p hp => hpq p hp)
  have hids : ((pages.filter P).map Entry.id).Nodup := by
    have hall : ((ps.map f).map Entry.id).Nodup := by
      rw [List.map_map]
      have : ps.map (Entry.id ∘ f) = (ps.map Placed.id).map Utf16.ofText := by
        rw [List.map_map]
        exact List.map_congr_left fun p hp => (hpages p hp).1.id
      rw [this]
      exact hn.map Utf16.ofText_injective
    exact ((hps.map Entry.id).nodup_iff.mpr hall).sublist (List.filter_sublist.map _)
  rw [sort_entries (hps.filter P) hids, hfilter, sort_shows fun p hp => hpages p (List.mem_of_mem_filter hp)]

end

/-- The bridge lists the pages as the browser does, section by section with Quick Notes last, and puts a new one at the end under
the same key, or refuses it where the browser does. -/
theorem bridge_orders_as_browser {f g : Placed → Entry} {ps ss : List Placed} {pages sections : List Entry}
    (hpages : ∀ p ∈ ps, Shows (f p) p ∧ objectID p.id = true) (hsections : ∀ s ∈ ss, Shows (g s) s ∧ objectID s.id = true)
    (hps : pages.Perm (ps.map f)) (hss : sections.Perm (ss.map g)) (hpn : (ps.map Placed.id).Nodup)
    (hsn : (ss.map Placed.id).Nodup) :
    ordered (sections.mergeSort fun a b => compareOrdered a b ≤ 0) pages =
        ((sortedSections ss).flatMap (fun s => pagesInSection ps ss s.id) ++ pagesInSection ps ss quickNotes).map f ∧
      (∀ (es : List Entry) (list : List Placed), List.Forall₂ (fun e p => e.payload.order = p.order.getD "") es list →
        Valid list → endOrder es = Outline.endOrder list) ∧
      ∀ key : String, isOrderKey key = true → keyAfter key = keyBetween (some key) none := by
  refine ⟨?_, fun es list h hvalid => endOrder_shows h hvalid, fun key h => keyAfter_eq h⟩
  have hids : (sections.map Entry.id).Nodup := by
    refine (hss.map Entry.id).nodup_iff.mpr ?_
    have hmap : (ss.map g).map Entry.id = (ss.map Placed.id).map Utf16.ofText := by
      rw [List.map_map, List.map_map]
      exact List.map_congr_left fun s hs => (hsections s hs).1.id
    rw [hmap]
    exact hsn.map Utf16.ofText_injective
  rw [sort_entries hss hids, sort_shows hsections, ordered]
  have hsorted : ((sorted ss).map g).Perm (ss.map g) := (List.mergeSort_perm _ _).map g
  have hin : ∀ {id : JsString} {sectionID : String}, SectionIs id sectionID →
      inSection ((sorted ss).map g) pages id = (pagesInSection ps ss sectionID).map f :=
    fun h => inSection_shows hpages hsections hps hsorted hpn h
  rw [hin (Or.inl ⟨rfl, rfl⟩), List.map_append, List.map_flatMap, List.flatMap_map]
  congr 1
  refine List.flatMap_congr fun s hs => ?_
  have hmem : s ∈ ss := List.mem_mergeSort.mp hs
  obtain ⟨hshows, hid⟩ := hsections s hmem
  refine hin (Or.inr ⟨?_, ?_, hshows.id⟩)
  · rw [hshows.id]
    intro hnil
    have hempty : s.id = "" := Utf16.ofText_injective (hnil.trans rfl)
    rw [hempty] at hid
    exact absurd hid (by decide)
  · intro hq
    rw [hq] at hid
    exact absurd hid (by decide)

/-- An entry of what the browser has. -/
def entryOf (type : PayloadType) (p : Placed) : Entry :=
  ⟨Utf16.ofText p.id, ⟨type, "", "", p.sectionId.getD "", none, "", "", p.order.getD "", none⟩⟩

def firstSection : Placed := ⟨"obj_aaaaaaaaaaaaaaaaaaaaaaaaaa", none, some "i", none⟩

def inFirst : Placed := ⟨"obj_bbbbbbbbbbbbbbbbbbbbbbbbbb", some firstSection.id, none, none⟩

/-- A page of a section that no longer exists. -/
def orphan : Placed := ⟨"obj_cccccccccccccccccccccccccc", some "obj_dddddddddddddddddddddddddd", some "z", none⟩

theorem bridge_orders_as_browser_orphan :
    ordered ([entryOf .sect firstSection].mergeSort fun a b => compareOrdered a b ≤ 0)
        [entryOf .page orphan, entryOf .page inFirst] =
      ((sortedSections [firstSection]).flatMap (fun s => pagesInSection [inFirst, orphan] [firstSection] s.id) ++
        pagesInSection [inFirst, orphan] [firstSection] quickNotes).map (entryOf .page) := by
  have hshows : ∀ type p, objectID p.id = true → Shows (entryOf type p) p ∧ objectID p.id = true :=
    fun type p h => ⟨⟨rfl, rfl, rfl⟩, h⟩
  have hpages : ∀ p ∈ [inFirst, orphan], Shows (entryOf .page p) p ∧ objectID p.id = true := by
    rw [List.forall_mem_cons, List.forall_mem_singleton]
    exact ⟨hshows _ _ (by decide +kernel), hshows _ _ (by decide +kernel)⟩
  have hsections : ∀ s ∈ [firstSection], Shows (entryOf .sect s) s ∧ objectID s.id = true := by
    rw [List.forall_mem_singleton]
    exact hshows _ _ (by decide +kernel)
  exact (bridge_orders_as_browser hpages hsections (List.Perm.swap _ _ _) (List.Perm.refl _) (by decide +kernel)
    (by decide +kernel)).1

end KyNotes.Bridge
