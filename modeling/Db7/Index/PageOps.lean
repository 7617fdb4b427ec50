import Db7.Index.Split
import Mathlib.Data.List.TakeWhile

/-!
# Page operations on the tuples

What the operations of the two layouts do, in terms of the tuples and the fence
of the page (`BtreePage.node`).
-/

namespace Db7

open Lib Function KeyNormEncoder

namespace BtreePage

/-- A page of level 0 is a leaf. -/
def layout (pg : BtreePage) : Layout := if pg.level = 0 then .leaf else .inter

/-- What the page denotes. -/
def node (pg : BtreePage) : BLink.Node Key :=
  ⟨pg.level, pg.layout.entries pg, pg.layout.high pg, pg.rlink⟩

theorem layout_leaf {pg : BtreePage} (h : pg.level = 0) : pg.layout = .leaf := if_pos h

theorem layout_inter {pg : BtreePage} (h : pg.level ≠ 0) : pg.layout = .inter := if_neg h

end BtreePage

namespace Layout

variable {lay : Layout} {pg pg' : BtreePage} {key : Key}

theorem hasSplit_iff : lay.hasSplit pg key = true ↔ ∃ h ∈ lay.high pg, h ≤ key := by
  by_cases hmax : pg.maxVal = undefinedOffset
  · simp [hasSplit, Layout.high, hmax]
  · simp [hasSplit, Layout.high, hmax, cmpFull_nonpos]

theorem covers_of_not_hasSplit (h : lay.hasSplit pg key ≠ true) :
    ∀ b ∈ lay.high pg, key < b := by
  intro b hb
  by_contra hle
  exact h (hasSplit_iff.mpr ⟨b, hb, not_lt.mp hle⟩)

/-- A page without some of its slots. -/
theorem PageInv.sublist (h : PageInv lay pg) {slots : List Nat} (hsub : slots.Sublist pg.slots) :
    PageInv lay { pg with slots := slots } := by
  have hlive : (slots.map (lay.recFoot pg)).sum ≤ lay.liveFoot pg :=
    (hsub.map _).sum_le_sum fun _ _ => Nat.zero_le _
  have hroom := h.room
  have htotal := h.total
  have hcount : slots.length ≤ pg.count := hsub.length_le
  refine ⟨h.aligned, ?_, fun o ho => h.inHeap o (hsub.subset ho), h.apart.sublist hsub, h.fence, ?_⟩
  · show headerSize + 2 * slots.length ≤ pg.heapOffset
    omega
  · show pg.heapOffset + (slots.map (lay.recFoot pg)).sum + lay.fenceFoot pg ≤ db7PageSize
    omega

/-- `HasSpace` when the offset does not wrap. -/
theorem hasSpace_iff (h : PageInv lay pg) (hnowrap : lay.foot key.length ≤ pg.heapOffset) :
    lay.hasSpace pg key = true ↔
      headerSize + 2 * (pg.count + 1) + lay.foot key.length ≤ pg.heapOffset := by
  have hadd := calculateHeapOffset_add lay h.aligned h.le_pageSize hnowrap
  have hroom := h.room
  have hle := h.le_pageSize
  have hpage : db7PageSize = 8192 := rfl
  have hu : u16 ((pg.count + 1) * 2) = (pg.count + 1) * 2 := Nat.mod_eq_of_lt (by omega)
  simp only [hasSpace, hu, ge_iff_le, decide_eq_true_eq]
  omega

end Layout

namespace BtreeVarlenLayoutLeaf

open Layout (leaf)

variable {pg pg' : BtreePage} {key : Key}

theorem highPrefixCmp_iff : highPrefixCmp pg key = true ↔
    ∃ h ∈ leaf.high pg, cmpPrefix h key = 0 := by
  by_cases hmax : pg.maxVal = undefinedOffset
  · simp [highPrefixCmp, Layout.high, hmax]
  · simp [highPrefixCmp, Layout.high, hmax]

/-- `Insert` puts the key in its place. -/
theorem insert_ok (h : Layout.PageInv .leaf pg) (hs : Layout.Sorted .leaf pg)
    (hok : insert pg key = .ok pg') :
    key.length < db7MaxRowSize ∧ Layout.Inserted .leaf pg pg' key 0 := by
  obtain ⟨_, hassert, hok⟩ := bind_ok.mp hok
  have hlen : key.length < db7MaxRowSize := by simpa using assertThat_ok.mp hassert
  have : db7MaxRowSize = 819 := rfl
  exact ⟨hlen, Layout.insertTuple_ok h hs (by omega) (by decide) hok⟩

/-- `Delete` takes the slot of the key out. -/
theorem delete_ok (h : Layout.PageInv .leaf pg) (hs : Layout.Sorted .leaf pg)
    (hok : delete pg key = .ok pg') :
    Layout.PageInv .leaf pg' ∧ (leaf.entries pg').Sublist (leaf.entries pg) ∧
      (∀ e, e ∈ leaf.entries pg' ↔ e ∈ leaf.entries pg ∧ e.1 ≠ key) ∧
      leaf.high pg' = leaf.high pg ∧ pg'.level = pg.level ∧ pg'.rlink = pg.rlink ∧
      pg'.pid = pg.pid := by
  simp only [delete] at hok
  split at hok <;> rename_i hidx
  · generalize findDeletePosition pg key = idx at hok hidx
    obtain ⟨_, hassert, hok⟩ := bind_ok.mp hok
    obtain rfl := Except.ok.inj hok
    have hcmp : cmpFull (leaf.slotKey pg (pg.slot idx)) key = 0 := by
      simpa using assertThat_ok.mp hassert
    have hkey := cmpFull_zero.mp hcmp
    have hsub : (pg.slots.eraseIdx idx).Sublist pg.slots := List.eraseIdx_sublist ..
    refine ⟨h.sublist hsub, hsub.map _, fun e => ?_, rfl, rfl, rfl, rfl⟩
    · have hlt : idx < (leaf.entries pg).length := by rwa [Layout.length_entries]
      have hget : (leaf.entries pg)[idx].1 = key := by rw [Layout.getElem_entries]; exact hkey
      have herase : leaf.entries { pg with slots := pg.slots.eraseIdx idx } =
          (leaf.entries pg).eraseIdx idx := by
        show (pg.slots.eraseIdx idx).map (leaf.entry pg) = _
        rw [Layout.entries, List.eraseIdx_map]
      rw [herase, List.mem_eraseIdx_iff_getElem]
      constructor
      · rintro ⟨i, hi, hne, rfl⟩
        refine ⟨List.getElem_mem _, fun heq => ?_⟩
        have hsorted := List.pairwise_iff_getElem.mp hs
        rcases Nat.lt_or_gt_of_ne hne with hlt' | hgt
        · exact (hsorted i idx hi hlt hlt').ne (heq.trans hget.symm)
        · exact (hsorted idx i hlt hi hgt).ne (hget.trans heq.symm)
      · rintro ⟨he, hne⟩
        obtain ⟨i, hi, rfl⟩ := List.mem_iff_getElem.mp he
        exact ⟨i, hi, fun heq => hne (by subst heq; exact hget), rfl⟩
  · exact absurd hok (by simp)

/-- What was deleted was there. -/
theorem mem_of_delete (hok : delete pg key = .ok pg') : ∃ e ∈ leaf.entries pg, e.1 = key := by
  simp only [delete] at hok
  split at hok <;> rename_i hidx
  · obtain ⟨_, hassert, -⟩ := bind_ok.mp hok
    have hlt : findDeletePosition pg key < (leaf.entries pg).length := by
      rwa [Layout.length_entries]
    have hcmp : cmpFull (leaf.slotKey pg (pg.slot (findDeletePosition pg key))) key = 0 := by
      simpa using assertThat_ok.mp hassert
    refine ⟨(leaf.entries pg)[findDeletePosition pg key], List.getElem_mem _, ?_⟩
    rw [Layout.getElem_entries]
    exact cmpFull_zero.mp hcmp
  · exact absurd hok (by simp)

/-- A key of the page can be deleted. -/
theorem delete_isOk (hs : Layout.Sorted .leaf pg) (hkey : ∃ e ∈ leaf.entries pg, e.1 = key) :
    ∃ pg', delete pg key = .ok pg' := by
  obtain ⟨e, he, rfl⟩ := hkey
  obtain ⟨i, hi, rfl⟩ := List.mem_iff_getElem.mp he
  have hi' : i < pg.count := by rwa [Layout.length_entries] at hi
  have hget : ((leaf.entries pg)[i]).1 = leaf.slotKey pg (pg.slot i) := by
    rw [Layout.getElem_entries]; rfl
  have hzero : cmpFull (leaf.slotKey pg (pg.slot i)) (leaf.entries pg)[i].1 = 0 :=
    cmpFull_zero.mpr hget.symm
  have hpos : findDeletePosition pg (leaf.entries pg)[i].1 = i := by
    refine searchEq_eq (fun a b hab hb hle => ?_) hi' hzero
    exact cmpFull_neg.mpr ((Layout.key_lt_key hs hab hb).trans_le (cmpFull_nonpos.mp hle))
  refine ⟨{ pg with slots := pg.slots.eraseIdx i }, ?_⟩
  simp only [delete, hpos, if_pos hi']
  exact bind_ok.mpr ⟨(), assertThat_ok.mpr (by simp [hzero]), rfl⟩

/-! ## `Get` -/

/-- A key that `BuildKey` makes from columns in `S` and an id, and that fits in
a row. -/
def KeyOf (S : Key → Prop) (k : Key) : Prop :=
  ∃ p t, S p ∧ t < 2 ^ 64 ∧ p.length + 8 < db7MaxRowSize ∧ k = buildKey p t

theorem cmpPrefix_buildKey {p q : Key} {t u : Nat} (hp : p.length + 8 < db7MaxRowSize) :
    cmpPrefix (buildKey p t) (buildKey q u) = 0 ↔ p = q := by
  rw [cmpPrefix_eq_zero (by simp) (by simp) (by simp only [length_buildKey]; omega), take_buildKey,
    take_buildKey]

/-- Whether to proceed: the fence has the columns that are looked for. -/
theorem get_proceed {S : Key → Prop} (hhigh : ∀ h ∈ leaf.high pg, KeyOf S h) {p : Key} :
    (get pg (buildKey p 0)).2 = true ↔ ∃ t, buildKey p t ∈ leaf.high pg ∧ t < 2 ^ 64 := by
  show highPrefixCmp pg _ = true ↔ _
  rw [highPrefixCmp_iff]
  constructor
  · rintro ⟨h, hh, hcmp⟩
    obtain ⟨q, t, -, ht, hlen, rfl⟩ := hhigh h hh
    obtain rfl := (cmpPrefix_buildKey hlen).mp hcmp
    exact ⟨t, hh, ht⟩
  · rintro ⟨t, hh, ht⟩
    obtain ⟨q, u, -, hu, hlen, heq⟩ := hhigh _ hh
    obtain ⟨rfl, rfl⟩ := (buildKey_inj ht hu).mp heq
    exact ⟨_, hh, (cmpPrefix_buildKey hlen).mpr rfl⟩

section Get

variable {S : Key → Prop} {p : Key}

/-- The tuples that `Get` looks at: those from the insert position on, as long
as they have the columns. -/
theorem get_eq (key : Key) (hs : Layout.Sorted .leaf pg) : ∃ before after : List Key,
    (leaf.entries pg).map Prod.fst = before ++ after ∧ (∀ a ∈ before, a < key) ∧
      (∀ b ∈ after, key ≤ b) ∧
      (get pg key).1 = (after.takeWhile fun cur => cmpPrefix cur key = 0).map result := by
  have hparts := partitionPoint_parts
    (p := fun i => decide (cmpFull (leaf.slotKey pg (pg.slot i)) key < 0)) (n := pg.count)
    (by simpa using Layout.parts_insert hs key)
  obtain ⟨hbefore, hafter⟩ := Layout.take_drop_of_parts hparts
  refine ⟨_, _, (List.take_append_drop (partitionPoint
      (fun i => decide (cmpFull (leaf.slotKey pg (pg.slot i)) key < 0)) pg.count 0 pg.count)
        _).symm,
    fun a ha => ?_, fun b hb => ?_, ?_⟩
  · rw [← List.map_take] at ha
    obtain ⟨e, he, rfl⟩ := List.mem_map.mp ha
    exact hbefore e he
  · rw [← List.map_drop] at hb
    obtain ⟨e, he, rfl⟩ := List.mem_map.mp hb
    exact hafter e he
  · rw [Layout.entries, List.map_map, ← List.map_drop]
    rfl

/-- `Get` returns ids that are in the page under the columns, in increasing
order. -/
theorem get_sound (hs : Layout.Sorted .leaf pg) (hk : ∀ e ∈ leaf.entries pg, KeyOf S e.1) :
    (∀ t ∈ (get pg (buildKey p 0)).1, t < 2 ^ 64 ∧ ∃ e ∈ leaf.entries pg, e.1 = buildKey p t) ∧
      (get pg (buildKey p 0)).1.Pairwise (· < ·) := by
  obtain ⟨before, after, hsplit, -, -, hget⟩ := get_eq (buildKey p 0) hs
  have hmem : ∀ k ∈ after.takeWhile fun cur => cmpPrefix cur (buildKey p 0) = 0,
      ∃ t, t < 2 ^ 64 ∧ k = buildKey p t ∧ ∃ e ∈ leaf.entries pg, e.1 = buildKey p t := by
    intro k hk'
    have hin : k ∈ (leaf.entries pg).map Prod.fst := by
      rw [hsplit]
      exact List.mem_append_right _ ((List.takeWhile_sublist _).subset hk')
    obtain ⟨e, he, rfl⟩ := List.mem_map.mp hin
    obtain ⟨q, t, -, ht, hlen, heq⟩ := hk e he
    have hcmp : cmpPrefix e.1 (buildKey p 0) = 0 := by simpa using List.mem_takeWhile_imp hk'
    rw [heq, cmpPrefix_buildKey hlen] at hcmp
    subst hcmp
    exact ⟨t, ht, heq, e, he, heq⟩
  rw [hget]
  constructor
  · intro t ht
    obtain ⟨k, hk', rfl⟩ := List.mem_map.mp ht
    obtain ⟨u, hu, rfl, hex⟩ := hmem k hk'
    rw [result_buildKey p hu]
    exact ⟨hu, hex⟩
  · have hsorted : (before ++ after).Pairwise (· < ·) := by
      rw [← hsplit, List.pairwise_map]
      exact hs
    rw [List.pairwise_map]
    refine ((List.pairwise_append.mp hsorted).2.1.sublist (List.takeWhile_sublist _)).imp_of_mem
      fun {a b} ha hb hab => ?_
    obtain ⟨t, ht, rfl, -⟩ := hmem a ha
    obtain ⟨u, hu, rfl, -⟩ := hmem b hb
    rw [result_buildKey p ht, result_buildKey p hu]
    exact (buildKey_lt_iff p ht hu).mp hab

/-- When no columns are a proper prefix of others, `Get` misses no id of the
page. -/
theorem get_complete (hS : PrefixFree S) (hp : S p) (hs : Layout.Sorted .leaf pg)
    (hk : ∀ e ∈ leaf.entries pg, KeyOf S e.1) {e : Key × Nat} (he : e ∈ leaf.entries pg) {t : Nat}
    (ht : t < 2 ^ 64) (heq : e.1 = buildKey p t) : t ∈ (get pg (buildKey p 0)).1 := by
  obtain ⟨before, after, hsplit, hbefore, hafter, hget⟩ := get_eq (buildKey p 0) hs
  have hin : buildKey p t ∈ before ++ after := by
    rw [← hsplit, ← heq]
    exact List.mem_map_of_mem he
  have hmem : buildKey p t ∈ after := by
    rcases List.mem_append.mp hin with h | h
    · exact absurd (hbefore _ h) (not_lt.mpr (buildKey_zero_le p ht))
    · exact h
  have hsorted : after.Pairwise (· < ·) := by
    have : (before ++ after).Pairwise (· < ·) := by
      rw [← hsplit, List.pairwise_map]
      exact hs
    exact (List.pairwise_append.mp this).2.1
  obtain ⟨l, r, rfl⟩ := List.mem_iff_append.mp hmem
  -- every key up to this one lies between two keys with the columns
  have hcmp : ∀ k ∈ l ++ [buildKey p t], cmpPrefix k (buildKey p 0) = 0 := by
    intro k hk'
    have hka : k ∈ l ++ buildKey p t :: r := by
      rcases List.mem_append.mp hk' with h | h
      · exact List.mem_append_left _ h
      · rw [List.mem_singleton.mp h]; simp
    have hle : k ≤ buildKey p t := by
      rcases List.mem_append.mp hk' with h | h
      · exact ((List.pairwise_append.mp hsorted).2.2 k h _ List.mem_cons_self).le
      · exact (List.mem_singleton.mp h).le
    have hkin : k ∈ (leaf.entries pg).map Prod.fst := by
      rw [hsplit]
      exact List.mem_append_right _ hka
    obtain ⟨e', he', rfl⟩ := List.mem_map.mp hkin
    obtain ⟨q, u, hq, -, hlen, heq'⟩ := hk e' he'
    have hge := hafter _ hka
    rw [heq'] at hle hge ⊢
    rw [cmpPrefix_buildKey hlen]
    exact eq_of_between hS hp hq hge hle
  rw [hget, List.mem_map]
  refine ⟨buildKey p t, ?_, result_buildKey p ht⟩
  rw [show l ++ buildKey p t :: r = (l ++ [buildKey p t]) ++ r by simp,
    List.takeWhile_append_of_pos fun k hk' => by simpa using hcmp k hk']
  simp

end Get

end BtreeVarlenLayoutLeaf

namespace BtreeVarlenLayoutIntermediate

open Layout (inter)

variable {pg pg' : BtreePage} {key : Key}

theorem findChild_parts (key : Key) (hs : Layout.Sorted .inter pg) :
    Parts (fun i => decide (cmpFull (inter.slotKey pg (pg.slot i)) key ≤ 0)) pg.count
      (findChild pg key) := by
  refine partitionPoint_parts fun i j hij hj hle => ?_
  simp only [decide_eq_true_eq] at hle ⊢
  exact cmpFull_nonpos.mpr ((Layout.key_le_key hs hij hj).trans (cmpFull_nonpos.mp hle))

/-- `Get` follows a separator at or left of the key. -/
theorem get_ok (hs : Layout.Sorted .inter pg) {c : Nat} (hok : get pg key = .ok c) :
    ∃ e ∈ inter.entries pg, e.2 = c ∧ e.1 ≤ key := by
  have hparts := findChild_parts key hs
  simp only [get] at hok
  split at hok <;> rename_i hzero
  · exact absurd hok (by simp)
  · obtain rfl := Except.ok.inj hok
    have hle := hparts.le
    have hlt : findChild pg key - 1 < (inter.entries pg).length := by
      rw [Layout.length_entries]; omega
    refine ⟨(inter.entries pg)[findChild pg key - 1], List.getElem_mem hlt, ?_, ?_⟩
    · rw [Layout.getElem_entries]; rfl
    · have hbefore := hparts.before (findChild pg key - 1) (by omega)
      have hcmp : cmpFull (inter.slotKey pg (pg.slot (findChild pg key - 1))) key ≤ 0 := by
        simpa using hbefore
      rw [Layout.getElem_entries]
      exact cmpFull_nonpos.mp hcmp

/-- With the leftmost separator at or left of the key there is a child. -/
theorem get_isOk (hs : Layout.Sorted .inter pg) {e : Key × Nat} {es : List (Key × Nat)}
    (hcons : inter.entries pg = e :: es) (hle : e.1 ≤ key) : ∃ c, get pg key = .ok c := by
  have hparts := findChild_parts key hs
  have hpos : 0 < (inter.entries pg).length := by rw [hcons]; simp
  have hfirst : inter.slotKey pg (pg.slot 0) = e.1 := by
    have := Layout.getElem_entries hpos
    simp only [hcons, List.getElem_cons_zero] at this
    rw [this]; rfl
  refine ⟨_, if_neg fun hzero => ?_⟩
  rw [Layout.length_entries] at hpos
  have := hparts.after 0 (by omega) hpos
  rw [hfirst] at this
  simp [cmpFull_nonpos.mpr hle] at this

/-- `Insert` puts the separator in its place, and asserts that it is new. -/
theorem insert_ok (h : Layout.PageInv .inter pg) (hs : Layout.Sorted .inter pg) {value : Nat}
    (hv : value < 2 ^ 32) (hok : insert pg key value = .ok pg') :
    Layout.Inserted .inter pg pg' key value := by
  obtain ⟨_, hassert, hok⟩ := bind_ok.mp hok
  obtain ⟨_, -, hok⟩ := bind_ok.mp hok
  have hlen : key.length < db7MaxRowSize := by simpa using assertThat_ok.mp hassert
  have : db7MaxRowSize = 819 := rfl
  exact Layout.insertTuple_ok h hs (by omega) hv hok

/-- A root over two pages. -/
theorem createRoot_ok {level rootPid pid newPid : Nat} (hkey : key.length < 2 ^ 16)
    (hpos : key ≠ []) (hpid : pid < 2 ^ 32) (hnew : newPid < 2 ^ 32)
    (hok : createRoot (.initHeader level rootPid) key pid newPid = .ok pg') :
    Layout.PageInv .inter pg' ∧ inter.entries pg' = [([], pid), (key, newPid)] ∧
      inter.high pg' = none ∧ pg'.level = level ∧ pg'.rlink = undefinedPage ∧ pg'.pid = rootPid ∧
      pg'.heapOffset + inter.liveFoot pg' + inter.fenceFoot pg' = db7PageSize := by
  have hinit := @Layout.pageInv_initHeader .inter level rootPid
  obtain ⟨⟨pg₁, first⟩, happ₁, hok⟩ := bind_ok.mp hok
  obtain ⟨⟨pg₂, second⟩, happ₂, hok⟩ := bind_ok.mp hok
  obtain rfl := Except.ok.inj hok
  have ha₁ := (Layout.appendHeap_iff hinit.aligned hinit.le_pageSize (by decide) hpid).1 _ _ happ₁
  have hadd₁ := ha₁.off_add
  have hoff₁ := ha₁.heapOffset
  have hfull : (BtreePage.initHeader level rootPid).heapOffset = db7PageSize := rfl
  have hpage : db7PageSize = 8192 := rfl
  have hfoot0 : inter.foot ([] : Key).length = 8 := rfl
  have hone : Layout.PageInv .inter { pg₁ with slots := [first] } := by
    refine ha₁.pageInv hinit rfl hoff₁ (.inr ⟨.refl _, ?_⟩) ha₁.maxVal
    show headerSize + 2 * (0 + 1) ≤ first
    have : headerSize = 20 := rfl
    omega
  have ha₂ := (Layout.appendHeap_iff hone.aligned hone.le_pageSize hkey hnew).1 _ _ happ₂
  have hadd₂ := ha₂.off_add
  have hfits := ha₂.fits
  have hoff₂ := ha₂.heapOffset
  have htwo : Layout.PageInv .inter { pg₂ with slots := [first, second] } := by
    refine ha₂.pageInv hone rfl hoff₂ (.inr ⟨.swap .., ?_⟩) ha₂.maxVal
    have hf := inter.foot_mod key.length
    have hpos' : 0 < key.length := List.length_pos_iff.mpr hpos
    have hfb := inter.le_foot key.length
    show headerSize + 2 * (1 + 1) ≤ second
    change headerSize + 2 * 1 + _ ≤ pg₁.heapOffset at hfits
    change second + _ = pg₁.heapOffset at hadd₂
    have hmod : pg₁.heapOffset % 4 = 0 := hone.aligned
    have hf4 : inter.foot key.length % 4 = 0 := hf
    have hh : headerSize = 20 := rfl
    omega
  have hmax : pg₂.maxVal = undefinedOffset := by rw [ha₂.maxVal]; exact ha₁.maxVal
  have hrec := ha₂.record (o := first) (by show pg₁.heapOffset ≤ first; omega)
  have hfirst : inter.entry pg₂ first = ([], pid) := hrec.2.trans ha₁.entry
  have hlen1 : inter.recFoot pg₂ first = 8 := hrec.1.trans (ha₁.recFoot_eq.trans hfoot0)
  refine ⟨htwo, ?_, if_pos hmax, ?_, ?_, ?_, ?_⟩
  · show [inter.entry pg₂ first, inter.entry pg₂ second] = _
    rw [hfirst, ha₂.entry]
    rfl
  · show pg₂.level = level
    rw [ha₂.level]; exact ha₁.level
  · show pg₂.rlink = undefinedPage
    rw [ha₂.rlink]; exact ha₁.rlink
  · show pg₂.pid = rootPid
    rw [ha₂.pid]; exact ha₁.pid
  · have hfence : inter.fenceFoot { pg₂ with slots := [first, second] } = 0 := if_pos hmax
    rw [hfence]
    show pg₂.heapOffset + ([first, second].map (inter.recFoot pg₂)).sum + 0 = _
    simp only [List.map_cons, List.map_nil, List.sum_cons, List.sum_nil, hlen1, ha₂.recFoot_eq]
    change second + _ = pg₁.heapOffset at hadd₂
    omega

end BtreeVarlenLayoutIntermediate

end Db7
