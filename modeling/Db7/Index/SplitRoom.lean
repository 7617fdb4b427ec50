import Db7.Index.PageOps

/-!
# Room after a split

`FindSplitPoint` halves the key bytes, but what fills a page are aligned records, slots and
the copy of the sentinel. A page for which `HasSpace` is false has records enough, and none so
long that both halves could not take the pending key:

* **the page** (`Packed`): sorted, without dead records, its keys of the lengths that
  `Insert` admits;
* **the share** (`Share`): the left half has the fewest tuples with half of the key bytes;
* **room** (`room_left`, `room_right`): for every mix of lengths the pending key fits;
* **result** (`split_complete`): the split of such a page, for both formats.
-/

namespace Db7

open Lib Function

namespace Layout

/-- `sizeof(ValTyp) ≤ len < DB7_MAX_ROW_SIZE`. -/
def InRange (k : Key) : Prop := 8 ≤ k.length ∧ k.length < db7MaxRowSize

/-- Every key is in range, but for the first one of an inner page, which may be empty. -/
def SizedKeys (lay : Layout) (ks : List Key) : Prop :=
  ∀ i k, ks[i]? = some k → InRange k ∨ lay = inter ∧ i = 0 ∧ k = []

variable (lay : Layout)

/-- The keys of a page, in slot order. -/
def keys (pg : BtreePage) : List Key := (lay.entries pg).map Prod.fst

/-- The key bytes, which `FindSplitPoint` weighs. -/
def keyBytes (ks : List Key) : Nat := (ks.map List.length).sum

/-- The bytes of the records. -/
def footSum (ks : List Key) : Nat := (ks.map fun k => lay.foot k.length).sum

/-- A page as `Insert`s leave it: sorted, and nothing in the heap but tuples and fence. -/
structure Packed (pg : BtreePage) : Prop where
  inv : PageInv lay pg
  sorted : Sorted lay pg
  filled : pg.heapOffset + lay.liveFoot pg + lay.fenceFoot pg = db7PageSize
  sized : SizedKeys lay (lay.keys pg)
  fence : ∀ h ∈ lay.high pg, InRange h

/-- The same without a word about the heap, where deleted records may lie. -/
structure InOrder (pg : BtreePage) : Prop where
  inv : PageInv lay pg
  sorted : Sorted lay pg
  sized : SizedKeys lay (lay.keys pg)
  fence : ∀ h ∈ lay.high pg, InRange h

variable {lay} {pg left : BtreePage} {ks as bs : List Key} {key k : Key} {n : Nat}

theorem Packed.inOrder (h : Packed lay pg) : InOrder lay pg := ⟨h.inv, h.sorted, h.sized, h.fence⟩

/-! ## Sizes -/

theorem length_keys (lay : Layout) (pg : BtreePage) :
    (lay.keys pg).length = pg.count := by rw [keys, List.length_map, length_entries]

theorem liveFoot_eq (lay : Layout) (pg : BtreePage) :
    lay.liveFoot pg = lay.footSum (lay.keys pg) := by
  unfold liveFoot footSum keys entries
  rw [List.map_map, List.map_map]
  refine congrArg List.sum (List.map_congr_left fun o _ => ?_)
  show lay.foot (lay.slotLen pg o) = lay.foot (lay.slotKey pg o).length
  rw [length_slotKey]

theorem fenceFoot_eq (lay : Layout) (pg : BtreePage) :
    lay.fenceFoot pg = (lay.high pg).elim 0 fun h => lay.foot h.length := by
  by_cases hmax : pg.maxVal = undefinedOffset
  · simp [fenceFoot, high, hmax]
  · simp [fenceFoot, high, hmax, length_slotKey, recFoot]

theorem footSum_append : lay.footSum (as ++ bs) = lay.footSum as + lay.footSum bs := by
  simp [footSum]

theorem keyBytes_append : keyBytes (as ++ bs) = keyBytes as + keyBytes bs := by
  simp [keyBytes]

theorem keyBytes_cons : keyBytes (k :: ks) = k.length + keyBytes ks := by
  simp [keyBytes]

theorem footSum_cons : lay.footSum (k :: ks) = lay.foot k.length + lay.footSum ks := by
  simp [footSum]

theorem keyBytes_singleton : keyBytes [k] = k.length := by
  simp [keyBytes]

theorem footSum_singleton : lay.footSum [k] = lay.foot k.length := by
  simp [footSum]

/-- The longest record. -/
theorem foot_le (lay : Layout) (h : k.length < db7MaxRowSize) : lay.foot k.length ≤ 828 := by
  have hmax : db7MaxRowSize = 819 := rfl
  cases lay <;> simp only [foot, hdrSize, align] <;> omega

/-- A record with its slot against its key: the worst is an inner one with a key of nine bytes. -/
theorem foot_ratio (lay : Layout) {len : Nat} (h : 8 ≤ len) :
    9 * (lay.foot len + 2) ≤ 22 * len := by
  cases lay <;> simp only [foot, hdrSize, align] <;> omega

theorem keyBytes_le_footSum (lay : Layout) (ks : List Key) : keyBytes ks ≤ lay.footSum ks := by
  induction ks with
  | nil => exact Nat.le_refl _
  | cons k ks ih =>
      have hfoot := lay.le_foot k.length
      rw [keyBytes_cons, footSum_cons]
      omega

theorem SizedKeys.length_lt (h : SizedKeys lay ks) (hk : k ∈ ks) : k.length < db7MaxRowSize := by
  obtain ⟨i, hi⟩ := List.mem_iff_getElem?.mp hk
  rcases h i k hi with hrange | ⟨-, -, rfl⟩
  · exact hrange.2
  · decide

theorem SizedKeys.take (h : SizedKeys lay ks) : SizedKeys lay (ks.take n) := by
  intro i k hk
  rw [List.getElem?_take] at hk
  split at hk
  · exact h i k hk
  · cases hk

/-- Behind the first key all are in range. -/
theorem SizedKeys.inRange_drop (h : SizedKeys lay ks) (hn : 1 ≤ n) (hk : k ∈ ks.drop n) :
    InRange k := by
  obtain ⟨i, hi⟩ := List.mem_iff_getElem?.mp hk
  rw [List.getElem?_drop] at hi
  rcases h _ k hi with hrange | ⟨-, hzero, -⟩
  · exact hrange
  · omega

theorem SizedKeys.of_inRange (h : ∀ k ∈ ks, InRange k) : SizedKeys lay ks :=
  fun _ _ hk => .inl (h _ (List.mem_of_getElem? hk))

/-- The first key of an inner page stays the first. -/
theorem SizedKeys.insert (h : SizedKeys lay (as ++ bs)) (hkey : InRange key)
    (hfirst : lay = inter → as = [] → bs = []) : SizedKeys lay (as ++ key :: bs) := by
  intro i k hk
  rcases Nat.lt_trichotomy i as.length with hlt | heq | hgt
  · rw [List.getElem?_append_left hlt] at hk
    exact h i k (by rw [List.getElem?_append_left hlt]; exact hk)
  · subst heq
    simp only [List.getElem?_append_right (Nat.le_refl _), Nat.sub_self, List.getElem?_cons_zero,
      Option.some.injEq] at hk
    exact .inl (hk ▸ hkey)
  · rw [List.getElem?_append_right (by omega),
      show i - as.length = (i - 1 - as.length) + 1 by omega, List.getElem?_cons_succ] at hk
    rcases h (i - 1) k
      (by rw [List.getElem?_append_right (by omega)]; exact hk) with hrange | ⟨hinter, hzero, -⟩
    · exact .inl hrange
    · have has : as = [] := List.length_eq_zero_iff.mp (by omega)
      rw [hfirst hinter has, List.getElem?_nil] at hk
      cases hk

theorem footSum_le_mul {b : Nat} (h : ∀ k ∈ ks, lay.foot k.length ≤ b) :
    lay.footSum ks ≤ b * ks.length := by
  induction ks with
  | nil => exact Nat.le_refl _
  | cons k ks ih =>
      have hfoot := h k List.mem_cons_self
      have hrest := ih fun k' hk' => h k' (List.mem_cons_of_mem _ hk')
      rw [footSum_cons, List.length_cons, Nat.mul_succ]
      omega

theorem footSum_le_length (h : ∀ k ∈ ks, k.length < db7MaxRowSize) :
    lay.footSum ks ≤ 828 * ks.length :=
  footSum_le_mul fun k hk => lay.foot_le (h k hk)

theorem footSum_ratio (lay : Layout) (h : ∀ k ∈ ks, InRange k) :
    9 * (lay.footSum ks + 2 * ks.length) ≤ 22 * keyBytes ks ∧ 8 * ks.length ≤ keyBytes ks := by
  induction ks with
  | nil => exact ⟨Nat.le_refl _, Nat.le_refl _⟩
  | cons k ks ih =>
      have hlen := (h k List.mem_cons_self).1
      have hratio := lay.foot_ratio hlen
      have hrest := ih fun k' hk' => h k' (List.mem_cons_of_mem _ hk')
      rw [footSum_cons, keyBytes_cons, List.length_cons]
      omega

/-- The same with an empty key in front. -/
theorem SizedKeys.ratio (h : SizedKeys lay ks) :
    9 * (lay.footSum ks + 2 * ks.length) ≤ 22 * keyBytes ks + 90 ∧
      8 * ks.length ≤ keyBytes ks + 8 := by
  cases ks with
  | nil => exact ⟨Nat.zero_le _, Nat.zero_le _⟩
  | cons k ks =>
      have hrest := @footSum_ratio ks lay fun k' hk' => h.inRange_drop (n := 1) (Nat.le_refl _) hk'
      rw [footSum_cons, keyBytes_cons, List.length_cons]
      rcases h 0 k rfl with hrange | ⟨rfl, -, rfl⟩
      · have hlen := hrange.1
        have hratio := lay.foot_ratio hlen
        omega
      · have hempty : inter.foot ([] : Key).length = 8 := rfl
        have hlen : ([] : Key).length = 0 := rfl
        omega

/-! ## The share of the left half -/

/-- `n` tuples stay left: the fewest that have half of all key bytes, but not all tuples. -/
structure Share (ks : List Key) (n : Nat) : Prop where
  pos : 1 ≤ n
  lt : n < ks.length
  before : n = 1 ∨ keyBytes (ks.take (n - 1)) < keyBytes ks / 2
  half : n + 1 = ks.length ∨ keyBytes ks / 2 ≤ keyBytes (ks.take n)

/-- The loop of `FindSplitPoint` after it has passed the keys `as`. -/
theorem splitLoop_share (hc : 2 ≤ ks.length) : ∀ as bs, as ++ bs = ks →
    (as = [] ∨ keyBytes as < keyBytes ks / 2) →
    Share ks
      (splitLoop ks.length (keyBytes ks / 2) (bs.map List.length) as.length (keyBytes as)) := by
  intro as bs
  induction bs generalizing as with
  | nil =>
      intro heq hbefore
      rw [List.append_nil] at heq
      subst heq
      rcases hbefore with rfl | hlt
      · simp at hc
      · omega
  | cons k bs ih =>
      intro heq hbefore
      have hlen : as.length + bs.length + 1 = ks.length := by
        rw [← heq, List.length_append, List.length_cons]
        omega
      have htake : ks.take as.length = as := by rw [← heq, List.take_left]
      have htake' : ks.take (as.length + 1) = as ++ [k] := by
        rw [← heq, List.append_cons]
        exact List.take_left' (by simp)
      have hbytes : keyBytes (as ++ [k]) = keyBytes as + k.length := by
        rw [keyBytes_append, keyBytes_singleton]
      rw [List.map_cons, splitLoop]
      split
      · rename_i hreach
        by_cases hlast : as.length + 1 ≤ ks.length - 1
        · rw [Nat.min_eq_left hlast]
          refine ⟨by omega, by omega, ?_, .inr ?_⟩
          · rw [Nat.add_sub_cancel, htake]
            exact hbefore.imp_left fun hnil => by rw [hnil]; rfl
          · rw [htake', hbytes]
            exact hreach
        · -- the last key would be the one to move
          rw [Nat.min_eq_right (by omega)]
          have has : as.length = ks.length - 1 := by omega
          refine ⟨by omega, by omega, .inr ?_, .inl (by omega)⟩
          rcases hbefore with rfl | hlt
          · simp at has
            omega
          · refine Nat.lt_of_le_of_lt ?_ hlt
            have hsub : ks.take (ks.length - 1 - 1) = as.take (as.length - 1) := by
              rw [← has, ← heq, List.take_append_of_le_length (by omega)]
            rw [hsub]
            conv => rhs; rw [← List.take_append_drop (as.length - 1) as, keyBytes_append]
            omega
      · rename_i hless
        have hnext := ih (as ++ [k]) (by rw [List.append_assoc]; exact heq)
          (.inr (by rw [hbytes]; omega))
        rw [List.length_append, hbytes] at hnext
        exact hnext

theorem findSplitPoint_share (h : lay.findSplitPoint pg = .ok n) : Share (lay.keys pg) n := by
  obtain ⟨hc, -, -⟩ := findSplitPoint_ok h
  obtain ⟨_, -, hok⟩ := bind_ok.mp h
  obtain rfl := Except.ok.inj hok
  have hlens : pg.slots.map (lay.slotLen pg) = (lay.keys pg).map List.length := by
    rw [keys, entries, List.map_map, List.map_map]
    exact List.map_congr_left fun o _ => (length_slotKey o).symm
  rw [hlens, ← length_keys lay]
  exact splitLoop_share (by rw [length_keys]; exact hc) [] (lay.keys pg) rfl (.inl rfl)

/-! ## Room -/

/-- The keys around the split point. -/
theorem Share.parts (h : Share ks n) : ∃ before x s after, ks.take (n - 1) = before ∧
      ks.take n = before ++ [x] ∧
    ks.drop n = s :: after ∧ ks[n]? = some s ∧ ks = before ++ [x] ++ s :: after ∧
      before.length + 1 = n := by
  have hlt := h.lt
  have hpos := h.pos
  have hx : n - 1 < ks.length := by omega
  have htake : ks.take n = ks.take (n - 1) ++ [ks[n - 1]] := by
    rw [List.take_append_getElem hx, Nat.sub_add_cancel hpos]
  refine ⟨ks.take (n - 1), ks[n - 1], ks[n], ks.drop (n + 1), rfl, htake,
    List.drop_eq_getElem_cons hlt,
    List.getElem?_eq_getElem hlt, ?_, ?_⟩
  · rw [← htake, ← List.drop_eq_getElem_cons hlt, List.take_append_drop]
  · rw [List.length_take]
    omega

/-- The left half takes the sentinel and the key: what it keeps of the small keys is
outweighed by what has moved right, and all records with the key's were below a page. -/
theorem Share.room_left {s : Key} (h : Share ks n) (hs : SizedKeys lay ks) (hn : ks[n]? = some s)
    (hkey : key.length < db7MaxRowSize)
    (hfull : lay.footSum ks + lay.foot key.length ≤ db7PageSize) :
    headerSize + 2 * (n + 1) + lay.footSum (ks.take n) + lay.foot s.length + lay.foot key.length ≤
      db7PageSize := by
  obtain ⟨before, x, s', after, hbefore, htake, -, hs', hks, hlen⟩ := h.parts
  obtain rfl : s = s' := Option.some.inj (hn.symm.trans hs')
  have hin : ∀ k ∈ [x, s], k ∈ ks := by
    intro k hk
    rw [hks]
    rcases List.mem_cons.mp hk with rfl | hk
    · simp
    · simp [List.mem_singleton.mp hk]
  have hxlen := hs.length_lt (hin x (by simp))
  have hslen := hs.length_lt (hin s (by simp))
  have hxfoot := lay.foot_le hxlen
  have hsfoot := lay.foot_le hslen
  have hkfoot := lay.foot_le hkey
  have hratio := (hbefore ▸ hs.take : SizedKeys lay before).ratio
  have hafter := keyBytes_le_footSum lay after
  have hhead : headerSize = 20 := rfl
  have hpage : db7PageSize = 8192 := rfl
  have hmax : db7MaxRowSize = 819 := rfl
  have hsum : lay.footSum ks = lay.footSum before + lay.foot x.length + lay.foot
      s.length + lay.footSum after := by
    conv => lhs; rw [hks]
    rw [footSum_append, footSum_append, footSum_singleton, footSum_cons]
    omega
  have hbytes : keyBytes ks = keyBytes before + x.length + s.length + keyBytes after := by
    conv => lhs; rw [hks]
    rw [keyBytes_append, keyBytes_append, keyBytes_singleton, keyBytes_cons]
    omega
  have hleft : lay.footSum (ks.take n) = lay.footSum before + lay.foot x.length := by
    rw [htake, footSum_append, footSum_singleton]
  rw [hleft]
  rcases h.before with rfl | hlt
  · have hnil : before = [] := List.length_eq_zero_iff.mp (by omega)
    have hzero : lay.footSum before = 0 := by rw [hnil]; rfl
    omega
  · rw [hbefore] at hlt
    omega

/-- The right half takes the key: it has half of the key bytes at most, or one tuple. -/
theorem Share.room_right {fence : Nat} (h : Share ks n) (hs : SizedKeys lay ks)
    (hkey : key.length < db7MaxRowSize) (hfence : fence ≤ 828)
    (hpage : headerSize + 2 * ks.length + lay.footSum ks + fence ≤ db7PageSize) :
    headerSize + 2 * (ks.length - n + 1) + lay.footSum (ks.drop n) + fence + lay.foot key.length ≤
      db7PageSize := by
  have hrange : ∀ k ∈ ks.drop n, InRange k := fun k hk => hs.inRange_drop h.pos hk
  have hratio := (lay.footSum_ratio hrange).1
  have hcount := lay.footSum_le_length fun k hk => (hrange k hk).2
  have hkfoot := lay.foot_le hkey
  have hleft := keyBytes_le_footSum lay (ks.take n)
  have hhead : headerSize = 20 := rfl
  have hsize : db7PageSize = 8192 := rfl
  have hsum : lay.footSum ks = lay.footSum (ks.take n) + lay.footSum (ks.drop n) := by
    rw [← footSum_append, List.take_append_drop]
  have hbytes : keyBytes ks = keyBytes (ks.take n) + keyBytes (ks.drop n) := by
    rw [← keyBytes_append, List.take_append_drop]
  have hlt := h.lt
  rw [List.length_drop] at hratio hcount
  rcases h.half with hone | hhalf
  · rw [show ks.length - n = 1 by omega] at hcount ⊢
    omega
  · omega

/-- When `HasSpace` is false the offset has not wrapped, and the key does not fit. -/
theorem full_of_not_hasSpace (h : PageInv lay pg) (hkey : key.length < db7MaxRowSize)
    (hspace : lay.hasSpace pg key = false) : lay.foot key.length ≤ pg.heapOffset ∧
      pg.heapOffset < headerSize + 2 * (pg.count + 1) + lay.foot key.length := by
  have hmax : db7MaxRowSize = 819 := rfl
  have hpage : db7PageSize = 8192 := rfl
  have hhead : headerSize = 20 := rfl
  have hroom := h.room
  have hle := h.le_pageSize
  have hnowrap : lay.foot key.length ≤ pg.heapOffset := by
    by_contra hwrap
    have hout := calculateHeapOffset_wrap lay h.aligned hle (by omega) (not_le.mp hwrap)
    have hhdr : lay.hdrSize ≤ 8 := by cases lay <;> simp [hdrSize]
    have hfoot := lay.foot_le hkey
    have hu : u16 ((pg.count + 1) * 2) = (pg.count + 1) * 2 := Nat.mod_eq_of_lt (by omega)
    have htrue : lay.hasSpace pg key = true := by
      simp only [hasSpace, hu, ge_iff_le, decide_eq_true_eq]
      omega
    rw [htrue] at hspace
    cases hspace
  refine ⟨hnowrap, ?_⟩
  by_contra hfits
  rw [(hasSpace_iff h hnowrap).mpr (not_lt.mp hfits)] at hspace
  cases hspace

theorem InOrder.fenceFoot_le (h : InOrder lay pg) : lay.fenceFoot pg ≤ 828 := by
  rw [fenceFoot_eq]
  cases hhigh : lay.high pg with
  | none => exact Nat.zero_le _
  | some b => exact lay.foot_le (h.fence b hhigh).2

/-- A page without room for the key has two tuples or more. -/
theorem Packed.two_le_count (h : Packed lay pg) (hkey : key.length < db7MaxRowSize)
    (hspace : lay.hasSpace pg key = false) : 2 ≤ pg.count := by
  have hfull := (full_of_not_hasSpace h.inv hkey hspace).2
  have hlive : lay.liveFoot pg ≤ 828 * pg.count := by
    rw [liveFoot_eq, ← length_keys lay]
    exact footSum_le_length fun k hk => h.sized.length_lt hk
  have hfence := h.inOrder.fenceFoot_le
  have hfilled := h.filled
  have hfoot := lay.foot_le hkey
  have hpage : db7PageSize = 8192 := rfl
  have hhead : headerSize = 20 := rfl
  omega

/-! ## The split -/

theorem pairwise_insert {es fs : List (Key × Nat)} {c : Nat}
    (h : (es ++ fs).Pairwise fun a b => a.1 < b.1)
    (hes : ∀ e ∈ es, e.1 < key) (hfs : ∀ e ∈ fs, key < e.1) :
    (es ++ (key, c) :: fs).Pairwise fun a b => a.1 < b.1 := by
  obtain ⟨h₁, h₂, h₁₂⟩ := List.pairwise_append.mp h
  refine List.pairwise_append.mpr ⟨h₁, List.pairwise_cons.mpr ⟨hfs, h₂⟩, fun a ha b hb => ?_⟩
  rcases List.mem_cons.mp hb with rfl | hb
  · exact hes a ha
  · exact h₁₂ a ha b hb

/-- A new tuple in a page with room; on an inner page it does not get in front. -/
theorem Packed.insert {pg' : BtreePage} {child : Nat} (h : Packed lay pg)
    (hins : Inserted lay pg pg' key child)
    (hkey : InRange key) (habsent : ∀ e ∈ lay.entries pg, e.1 ≠ key)
    (hfirst : lay = inter → ∀ e ∈ (lay.entries pg).head?, e.1 < key) : Packed lay pg' where
  inv := hins.pageInv
  sorted := by
    obtain ⟨es, fs, hold, hnew, hes, hfs⟩ := hins.entries
    have hsorted := h.sorted
    rw [Sorted, hold] at hsorted
    rw [Sorted, hnew]
    exact pairwise_insert hsorted hes fun e he =>
      lt_of_le_of_ne (hfs e he) fun heq =>
        habsent e (by rw [hold]; exact List.mem_append_right _ he) heq.symm
  filled := by
    have hfilled := h.filled
    have hoffset := hins.offset
    rw [hins.live, hins.fence]
    omega
  sized := by
    obtain ⟨es, fs, hold, hnew, hes, hfs⟩ := hins.entries
    have hsized := h.sized
    rw [keys, hold, List.map_append] at hsized
    rw [keys, hnew, List.map_append, List.map_cons]
    refine hsized.insert hkey fun hinter hnil => ?_
    cases fs with
    | nil => rfl
    | cons e fs =>
        have hlt := hfirst hinter e (by rw [hold, List.map_eq_nil_iff.mp hnil]; rfl)
        exact absurd (hfs e List.mem_cons_self) (not_le.mpr hlt)
  fence := by
    rw [hins.high]
    exact h.fence

/-- What a split with the pending `key` has to give: two packed pages with all tuples, parted
by the sentinel `s`, which is the left page's fence. -/
structure SplitDone (lay : Layout) (left l r : BtreePage) (newPid : Nat) (s key : Key)
    (child : Nat) : Prop where
  leftPacked : Packed lay l
  rightPacked : Packed lay r
  entries : ∃ es fs, lay.entries left = es ++ fs ∧
    lay.entries l ++ lay.entries r = es ++ (key, lay.childOf child) :: fs
  sorted : (lay.entries l ++ lay.entries r).Pairwise fun a b => a.1 < b.1
  left_lt : ∀ e ∈ lay.entries l, e.1 < s
  right_ge : ∀ e ∈ lay.entries r, s ≤ e.1
  front : (∀ e ∈ (lay.entries left).head?, e.1 < key) → (lay.entries l).head? =
    (lay.entries left).head?
  first : ∃ c rest, lay.entries r = (s, c) :: rest
  leftHigh : lay.high l = some s
  rightHigh : lay.high r = lay.high left
  leftRlink : l.rlink = newPid
  rightRlink : r.rlink = left.rlink

section Halves

variable {l r : BtreePage} {level newPid : Nat} {s : Key}

theorem Halved.keys (hh : Halved lay left l r level newPid n s) :
    lay.keys l = (lay.keys left).take n ∧ lay.keys r = (lay.keys left).drop n := by
  unfold Layout.keys
  rw [hh.leftHalf.entries, hh.rightHalf.entries, List.map_take, List.map_drop]
  exact ⟨rfl, rfl⟩

/-- Both halves of a page are packed, and parted by the sentinel. -/
theorem InOrder.halves (h : InOrder lay left) (hh : Halved lay left l r level newPid n s) :
    Packed lay l ∧ Packed lay r ∧ Share (lay.keys left) n ∧ (lay.keys left)[n]? = some s ∧
      (∀ e ∈ lay.entries l, e.1 < s) ∧ ∀ e ∈ lay.entries r, s ≤ e.1 := by
  have hshare := findSplitPoint_share hh.point
  obtain ⟨c, rest, hcons⟩ := hh.sentinel
  have hdrop : (lay.entries left).drop n = (s, c) :: rest := hh.rightHalf.entries.symm.trans hcons
  obtain ⟨hkl, hkr⟩ := hh.keys
  have hget : (lay.keys left)[n]? = some s := by
    have hzero := congrArg (·[0]?) (congrArg (List.map Prod.fst) hdrop)
    simp only [List.map_drop, List.getElem?_drop, Nat.add_zero, List.map_cons,
      List.getElem?_cons_zero] at hzero
    exact hzero
  obtain ⟨hsl, hsr⟩ := hh.sorted h.sorted
  have hrange : ∀ k ∈ lay.keys r, InRange k := by
    rw [hkr]
    exact fun k hk => h.sized.inRange_drop hshare.pos hk
  have hsrange : InRange s := hrange s (by rw [keys, hcons]; exact List.mem_cons_self)
  refine ⟨⟨hh.leftHalf.pageInv, hsl, hh.leftHalf.filled, by rw [hkl]; exact h.sized.take,
    fun b hb => ?_⟩,
    ⟨hh.rightHalf.pageInv, hsr, hh.rightHalf.filled, .of_inRange hrange, ?_⟩, hshare, hget,
      fun e he => ?_,
    fun e he => ?_⟩
  · rw [hh.leftHalf.high] at hb
    exact Option.some.inj hb ▸ hsrange
  · rw [hh.rightHalf.high]
    exact h.fence
  · have hpw := h.sorted
    rw [Sorted, ← List.take_append_drop n (lay.entries left), hdrop] at hpw
    rw [hh.leftHalf.entries] at he
    exact (List.pairwise_append.mp hpw).2.2 e he (s, c) List.mem_cons_self
  · have hpw := hsr
    rw [Sorted, hcons] at hpw
    rw [hcons] at he
    rcases List.mem_cons.mp he with rfl | he
    · exact le_rfl
    · exact (List.rel_of_pairwise_cons hpw he).le

/-- A half with room takes the key. -/
theorem Packed.takes {c : Nat} (h : Packed lay pg) (hkey : InRange key) (hchild : c < 2 ^ 32)
    (habsent : ∀ e ∈ lay.entries pg, e.1 ≠ key)
    (hfits : headerSize + 2 * (pg.count + 1) + lay.liveFoot pg + lay.fenceFoot
      pg + lay.foot key.length ≤
      db7PageSize) :
    lay.hasSpace pg key = true ∧ ∃ pg', lay.insertTuple pg key c = .ok pg' ∧
      Inserted lay pg pg' key c := by
  have hfilled := h.filled
  have hmax : db7MaxRowSize = 819 := rfl
  have hlen := hkey.2
  have hroom : headerSize + 2 * (pg.count + 1) + lay.foot key.length ≤ pg.heapOffset := by omega
  obtain ⟨pg', hok⟩ := insertTuple_isOk h.inv h.sorted (by omega) hchild hroom fun _ => habsent
  exact ⟨(hasSpace_iff h.inv (by omega)).mpr hroom, pg', hok,
    insertTuple_ok h.inv h.sorted (by omega) hchild hok⟩

/-- What the pending key has to be: new, and on an inner page not in front. -/
structure Pending (lay : Layout) (left : BtreePage) (key : Key) : Prop where
  inRange : InRange key
  absent : ∀ e ∈ lay.entries left, e.1 ≠ key
  first : lay = inter → ∀ e ∈ (lay.entries left).head?, e.1 < key

theorem Halved.entries_append (hh : Halved lay left l r level newPid n s) :
    lay.entries left = lay.entries l ++ lay.entries r := by
  rw [hh.leftHalf.entries, hh.rightHalf.entries, List.take_append_drop]

theorem Halved.head_left (hh : Halved lay left l r level newPid n s) :
    (lay.entries l).head? = (lay.entries left).head? := by
  have hn := (findSplitPoint_ok hh.point).2.1
  rw [hh.leftHalf.entries, List.head?_take, if_neg (by omega)]

theorem Halved.head_isSome (hh : Halved lay left l r level newPid n s) :
    ∃ e, (lay.entries l).head? = some e := by
  obtain ⟨hcount, -, -⟩ := findSplitPoint_ok hh.point
  have hpos : 0 < (lay.entries left).length := by
    rw [length_entries]
    omega
  exact ⟨_, hh.head_left.trans (List.head?_eq_getElem? .. ▸ List.getElem?_eq_getElem hpos)⟩

/-- The tuples that an insertion leaves behind the key are greater. -/
theorem behind_gt {es fs : List (Key × Nat)} (habsent : ∀ e ∈ es ++ fs, e.1 ≠ key)
    (hfs : ∀ e ∈ fs, key ≤ e.1) :
    ∀ e ∈ fs, key < e.1 :=
  fun e he => lt_of_le_of_ne (hfs e he) fun heq => habsent e (List.mem_append_right _ he) heq.symm

/-- The pending key in the right half. -/
theorem InOrder.splitRight {child : Nat} {r' : BtreePage} (h : InOrder lay left)
    (hh : Halved lay left l r level newPid n s) (hkey : Pending lay left key) (hside : s ≤ key)
    (hins : Inserted lay r r' key child) : SplitDone lay left l r' newPid s key child := by
  obtain ⟨hpl, hpr, -, -, hlt, hge⟩ := h.halves hh
  have hentries := hh.entries_append
  have habsent := hkey.absent
  have hsorted := h.sorted
  obtain ⟨c, rest, hcons⟩ := hh.sentinel
  obtain ⟨es, fs, hold, hnew, hes, hfs⟩ := hins.entries
  rw [hentries, hold, ← List.append_assoc] at habsent
  rw [Sorted, hentries, hold, ← List.append_assoc] at hsorted
  have habr : ∀ e ∈ lay.entries r, e.1 ≠ key := fun e he =>
    hkey.absent e (by rw [hentries]; exact List.mem_append_right _ he)
  have hgt := behind_gt habsent hfs
  have hslt : s < key :=
    lt_of_le_of_ne hside fun heq => habr (s, c) (by rw [hcons]; exact List.mem_cons_self) heq
  -- the sentinel is in front of the key
  have hfront : ∃ es', es = (s, c) :: es' := by
    cases es with
    | nil =>
        rw [List.nil_append] at hold
        have hmem : (s, c) ∈ fs := by
          rw [← hold, hcons]
          exact List.mem_cons_self
        exact absurd (hgt (s, c) hmem) (not_lt.mpr hside)
    | cons e es' =>
        rw [hcons, List.cons_append] at hold
        exact ⟨es', by rw [(List.cons.inj hold).1]⟩
  obtain ⟨es', hes'⟩ := hfront
  exact {
    leftPacked := hpl
    rightPacked := hpr.insert hins hkey.inRange habr fun _ e he => by
      rw [hcons] at he
      cases he
      exact hslt
    entries := ⟨lay.entries l ++ es, fs, by rw [hentries, hold, List.append_assoc],
      by rw [hnew, List.append_assoc]⟩
    sorted := by
      rw [hnew, ← List.append_assoc]
      refine pairwise_insert hsorted (fun e he => ?_) hgt
      rcases List.mem_append.mp he with he | he
      · exact (hlt e he).trans_le hside
      · exact hes e he
    left_lt := hlt
    right_ge := by
      intro e he
      rw [hnew] at he
      rcases List.mem_append.mp he with he | he
      · exact hge e (by rw [hold]; exact List.mem_append_left _ he)
      · rcases List.mem_cons.mp he with rfl | he
        · exact hside
        · exact hge e (by rw [hold]; exact List.mem_append_right _ he)
    front := fun _ => hh.head_left
    first := ⟨c, es' ++ (key, lay.childOf child) :: fs, by rw [hnew, hes']; rfl⟩
    leftHigh := hh.leftHalf.high
    rightHigh := hins.high.trans hh.rightHalf.high
    leftRlink := hh.leftHalf.rlink
    rightRlink := hins.rlink.trans hh.rlink }

/-- The pending key in the left half. -/
theorem InOrder.splitLeft {child : Nat} {l' : BtreePage} (h : InOrder lay left)
    (hh : Halved lay left l r level newPid n s) (hkey : Pending lay left key) (hside : key < s)
    (hins : Inserted lay l l' key child) : SplitDone lay left l' r newPid s key child := by
  obtain ⟨hpl, hpr, hshare, -, hlt, hge⟩ := h.halves hh
  have hentries := hh.entries_append
  have habsent := hkey.absent
  have hsorted := h.sorted
  obtain ⟨es, fs, hold, hnew, hes, hfs⟩ := hins.entries
  have habl : ∀ e ∈ lay.entries l, e.1 ≠ key := fun e he =>
    habsent e (by rw [hentries]; exact List.mem_append_left _ he)
  have hgt := behind_gt (hold ▸ habl) hfs
  rw [Sorted, hentries, hold, List.append_assoc] at hsorted
  exact {
    leftPacked := hpl.insert hins hkey.inRange habl fun hinter e he =>
      hkey.first hinter e (hh.head_left ▸ he)
    rightPacked := hpr
    entries := ⟨es, fs ++ lay.entries r, by rw [hentries, hold, List.append_assoc],
      by rw [hnew, List.append_assoc, List.cons_append]⟩
    sorted := by
      rw [hnew, List.append_assoc, List.cons_append]
      refine pairwise_insert hsorted hes fun e he => ?_
      rcases List.mem_append.mp he with he | he
      · exact hgt e he
      · exact hside.trans_le (hge e he)
    left_lt := by
      intro e he
      rw [hnew] at he
      rcases List.mem_append.mp he with he | he
      · exact hlt e (by rw [hold]; exact List.mem_append_left _ he)
      · rcases List.mem_cons.mp he with rfl | he
        · exact hside
        · exact hlt e (by rw [hold]; exact List.mem_append_right _ he)
    right_ge := hge
    front := fun hfront => by
      rw [← hh.head_left] at hfront ⊢
      rw [hold] at hfront
      rw [hnew, hold]
      cases es with
      | nil =>
          obtain ⟨c, hc⟩ := hh.head_isSome
          rw [hold, List.nil_append] at hc
          exact absurd (hfront c hc) (not_lt.mpr (hgt c (List.mem_of_mem_head? hc)).le)
      | cons e es => rfl
    first := hh.sentinel
    leftHigh := hins.high.trans hh.leftHalf.high
    rightHigh := hh.rightHalf.high
    leftRlink := hins.rlink.trans hh.leftHalf.rlink
    rightRlink := hh.rlink }

/-- The halves of a page that was too full for the key have room for it. -/
theorem InOrder.half_takes {child : Nat} (h : InOrder lay left)
    (hh : Halved lay left l r level newPid n s)
    (hkey : Pending lay left key) (hchild : child < 2 ^ 32)
    (hspace : lay.hasSpace left key = false) :
    (lay.hasSpace r key = true ∧ ∃ r', lay.insertTuple r key child = .ok r' ∧
      Inserted lay r r' key child) ∧
      lay.hasSpace l key = true ∧ ∃ l', lay.insertTuple l key child = .ok l' ∧
        Inserted lay l l' key child := by
  obtain ⟨hpl, hpr, hshare, hget, -, -⟩ := h.halves hh
  obtain ⟨hnowrap, -⟩ := full_of_not_hasSpace h.inv hkey.inRange.2 hspace
  have hentries := hh.entries_append
  obtain ⟨hkl, hkr⟩ := hh.keys
  have htotal := h.inv.total
  have hlive := liveFoot_eq lay left
  constructor
  · have hfence : lay.fenceFoot left ≤ 828 := h.fenceFoot_le
    have hroom := hshare.room_right h.sized hkey.inRange.2 hfence (by
      have := h.inv.room
      rw [length_keys]
      omega)
    refine hpr.takes hkey.inRange hchild (fun e he => hkey.absent e ?_) ?_
    · rw [hentries]
      exact List.mem_append_right _ he
    · rw [← length_keys lay, liveFoot_eq, hkr, List.length_drop, hh.rightHalf.fence]
      exact hroom
  · have hroom := hshare.room_left h.sized hget hkey.inRange.2 (by omega)
    refine hpl.takes hkey.inRange hchild (fun e he => hkey.absent e ?_) ?_
    · rw [hentries]
      exact List.mem_append_left _ he
    · rw [← length_keys lay, liveFoot_eq, hkl, List.length_take, Nat.min_eq_left hshare.lt.le,
        hh.leftHalf.fence]
      exact hroom

/-- The split of a page with two tuples and without room: no assertion fails, and all is done. -/
theorem split_complete {child : Nat} (h : InOrder lay left) (hcount : 2 ≤ left.count)
    (hkey : Pending lay left key)
    (hchild : child < 2 ^ 32) (hspace : lay.hasSpace left key = false) (level newPid : Nat) :
    ∃ l r s, lay.split left (.initHeader level newPid) newPid key child = .ok (l, r, s) ∧
      SplitDone lay left l r newPid s key child := by
  obtain ⟨l, r, s, n, hhalves, hh⟩ := halves_ok h.inv level newPid hcount
  obtain ⟨⟨hspacer, r', hokr, hinsr⟩, hspacel, l', hokl, hinsl⟩ :=
    h.half_takes hh hkey hchild hspace
  by_cases hside : s ≤ key
  · refine ⟨l, r', s, bind_ok.mpr ⟨_, hhalves, ?_⟩, h.splitRight hh hkey hside hinsr⟩
    show (if cmpFull s key ≤ 0 then _ else _) = _
    rw [if_pos (cmpFull_nonpos.mpr hside)]
    exact bind_ok.mpr ⟨(), assertThat_ok.mpr hspacer, bind_ok.mpr ⟨r', hokr, rfl⟩⟩
  · refine ⟨l', r, s, bind_ok.mpr ⟨_, hhalves, ?_⟩, h.splitLeft hh hkey (not_le.mp hside) hinsl⟩
    show (if cmpFull s key ≤ 0 then _ else _) = _
    rw [if_neg fun hc => hside (cmpFull_nonpos.mp hc)]
    exact bind_ok.mpr ⟨(), assertThat_ok.mpr hspacel, bind_ok.mpr ⟨l', hokl, rfl⟩⟩

end Halves

/-! ## A full page -/

/-- Keys that increase can be inserted one after the other as long as there is room. -/
theorem exists_packed (lay : Layout) (ks : List Key) (hs : ks.Pairwise (· < ·))
    (hrange : ∀ k ∈ ks, InRange k)
    (hroom : headerSize + 2 * ks.length + lay.footSum ks ≤ db7PageSize) :
    ∃ pg, Packed lay pg ∧ lay.entries pg = ks.map (fun k => (k, lay.childOf 1)) ∧
      lay.high pg = none := by
  induction ks using List.reverseRecOn with
  | nil =>
      refine ⟨.initHeader 0 1,
        ⟨pageInv_initHeader 0 1, .nil, rfl, fun i k hk => ?_, fun b hb => ?_⟩, rfl, rfl⟩
      · cases hk
      · cases hb
  | append_singleton ks k ih =>
      rw [footSum_append, footSum_singleton, List.length_append, List.length_singleton] at hroom
      obtain ⟨hks, -, hlast⟩ := List.pairwise_append.mp hs
      obtain ⟨pg, hp, hentries, hhigh⟩ :=
        ih hks (fun k' hk' => hrange k' (List.mem_append_left _ hk')) (by omega)
      have hkey : InRange k := hrange k (by simp)
      have hlt : ∀ e ∈ lay.entries pg, e.1 < k := by
        intro e he
        rw [hentries] at he
        obtain ⟨k', hk', rfl⟩ := List.mem_map.mp he
        exact hlast k' hk' k List.mem_cons_self
      have hkeys : lay.keys pg = ks := by
        rw [keys, hentries, List.map_map]
        exact List.map_id _
      have hfence : lay.fenceFoot pg = 0 := by
        rw [fenceFoot_eq, hhigh]
        rfl
      obtain ⟨-, pg', hok, hins⟩ :=
        hp.takes (c := 1) hkey (by decide) (fun e he => (hlt e he).ne) (by
        rw [← length_keys lay, liveFoot_eq, hkeys, hfence]
        omega)
      refine ⟨pg', hp.insert hins hkey (fun e he => (hlt e he).ne) fun _ e he =>
        hlt e (List.mem_of_mem_head? he), ?_, hins.high.trans hhigh⟩
      obtain ⟨es, fs, hold, hnew, -, hfs⟩ := hins.entries
      have hnil : fs = [] := by
        cases fs with
        | nil => rfl
        | cons e fs =>
            have hle := hfs e List.mem_cons_self
            exact absurd hle
              (not_le.mpr (hlt e (by rw [hold]; exact List.mem_append_right _ List.mem_cons_self)))
      have hes : es = lay.entries pg := by rw [hold, hnil, List.append_nil]
      rw [hnew, hnil, hes, hentries, List.map_append]
      rfl

theorem footSum_of_length {len : Nat} (h : ∀ k ∈ ks, k.length = len) :
    lay.footSum ks = ks.length * lay.foot len := by
  induction ks with
  | nil => exact (Nat.zero_mul _).symm
  | cons k ks ih =>
      rw [footSum_cons, h k List.mem_cons_self, ih fun k' hk' => h k' (List.mem_cons_of_mem _ hk'),
        List.length_cons,
        Nat.succ_mul, Nat.add_comm]

/-- Nine of the longest keys, and one that there is no room for. -/
theorem exists_full (lay : Layout) (len : Nat) (hlen : 7 ≤ len ∧ len < 818)
    (hfits : headerSize + 18 + 9 * lay.foot 818 ≤ db7PageSize)
    (hnowrap : lay.foot (len + 1) + 9 * lay.foot 818 ≤ db7PageSize)
    (hfull : db7PageSize < headerSize + 20 + lay.foot (len + 1) + 9 * lay.foot 818) :
    ∃ left key, Packed lay left ∧ Pending lay left key ∧ lay.hasSpace left key = false := by
  obtain ⟨p, hp⟩ : ∃ p : Key, p.length = 809 := ⟨List.replicate 809 (byte 0), List.length_replicate⟩
  obtain ⟨q, hq⟩ : ∃ q : Key, q.length = len := ⟨List.replicate len (byte 0), List.length_replicate⟩
  have hmax : db7MaxRowSize = 819 := rfl
  let ks := (List.range 9).map (KeyNormEncoder.buildKey (byte 0 :: p))
  have hlength : ∀ k ∈ ks, k.length = 818 := by
    intro k hk
    obtain ⟨t, -, rfl⟩ := List.mem_map.mp hk
    rw [length_buildKey, List.length_cons, hp]
  have hcount : ks.length = 9 := by rw [List.length_map, List.length_range]
  have hsum : lay.footSum ks = 9 * lay.foot 818 := by rw [footSum_of_length hlength, hcount]
  have hsorted : ks.Pairwise (· < ·) := by
    refine List.pairwise_map.mpr (List.pairwise_lt_range.imp_of_mem fun {t u} ht hu htu => ?_)
    have ht' := List.mem_range.mp ht
    have hu' := List.mem_range.mp hu
    exact (buildKey_lt_iff _ (by omega) (by omega)).mpr htu
  obtain ⟨left, hpacked, hentries, hhigh⟩ := exists_packed lay ks hsorted
    (fun k hk => by rw [InRange, hlength k hk]; exact ⟨by omega, by omega⟩) (by omega)
  have hlt : ∀ e ∈ lay.entries left, e.1 < byte 1 :: q := by
    intro e he
    rw [hentries] at he
    obtain ⟨k, hk, rfl⟩ := List.mem_map.mp he
    obtain ⟨t, -, rfl⟩ := List.mem_map.mp hk
    exact List.cons_lt_cons_iff.mpr (.inl (by decide))
  have hpending : Pending lay left (byte 1 :: q) :=
    ⟨⟨by rw [List.length_cons]; omega, by rw [List.length_cons]; omega⟩, fun e he => (hlt e he).ne,
      fun _ e he => hlt e (List.mem_of_mem_head? he)⟩
  refine ⟨left, _, hpacked, hpending, ?_⟩
  have hkeys : lay.keys left = ks := by
    rw [keys, hentries, List.map_map]
    exact List.map_id _
  have hfilled := hpacked.filled
  rw [fenceFoot_eq, hhigh, liveFoot_eq, hkeys, hsum] at hfilled
  simp only [Option.elim_none] at hfilled
  have hn : left.count = 9 := by rw [← length_keys lay, hkeys, hcount]
  have hlen' : (byte 1 :: q).length = len + 1 := by rw [List.length_cons, hq]
  rw [← Bool.not_eq_true, hasSpace_iff hpacked.inv (by rw [hlen']; omega), hn, hlen']
  omega

end Layout

/-! ## The two formats -/

namespace BtreeVarlenLayoutLeaf

open Layout (leaf)

variable {left : BtreePage} {key : Key}

/-- Every packed leaf without room for a new key can be split. -/
theorem split_packed (h : Layout.Packed .leaf left) (hkey : Layout.InRange key)
    (habsent : ∀ e ∈ leaf.entries left, e.1 ≠ key) (hspace : hasSpace left key = false)
    (level newPid : Nat) :
    ∃ l r s, split left (.initHeader level newPid) newPid key = .ok (l, r, s) ∧
      Layout.SplitDone .leaf left l r newPid s key 0 :=
  Layout.split_complete h.inOrder (h.two_le_count hkey.2 hspace) ⟨hkey, habsent, fun hc => by
    cases hc⟩ (by decide)
    hspace level newPid

theorem split_packed_nine : ∃ left key l r s, Layout.Packed .leaf left ∧ hasSpace left key = false ∧
    split left (.initHeader 0 2) 2 key = .ok (l, r, s) ∧
      Layout.SplitDone .leaf left l r 2 s key 0 := by
  obtain ⟨left, key, hpacked, hpending, hspace⟩ :=
    Layout.exists_full .leaf 799 (by decide) (by decide) (by decide) (by decide)
  obtain ⟨l, r, s, hsplit, hdone⟩ :=
    split_packed hpacked hpending.inRange hpending.absent hspace 0 2
  exact ⟨left, key, l, r, s, hpacked, hspace, hsplit, hdone⟩

end BtreeVarlenLayoutLeaf

namespace BtreeVarlenLayoutIntermediate

open Layout (inter)

variable {pg left l r : BtreePage} {key s k : Key} {child c newPid : Nat}

/-- `c` is the child of the last separator at or left of `k`. -/
def Assigns (es : List (Key × Nat)) (k : Key) (c : Nat) : Prop :=
  ∃ e ∈ es, e.2 = c ∧ e.1 ≤ k ∧ ∀ e' ∈ es, e'.1 ≤ k → e'.1 ≤ e.1

/-- After the split: `HasSplit`, `GetRLink` and `Get`. -/
def follow (l r : BtreePage) (k : Key) : Except Fault Nat :=
  if hasSplit l k then get r k else get l k

/-- `Get` finds the child that the page assigns to the key. -/
theorem get_assigns (hs : Layout.Sorted .inter pg)
    (hfirst : ∃ e ∈ (inter.entries pg).head?, e.1 ≤ k) :
    ∃ c, get pg k = .ok c ∧ Assigns (inter.entries pg) k c := by
  obtain ⟨e, he, hle⟩ := hfirst
  have hcons := (List.head?_eq_some_iff.mp he)
  obtain ⟨es, hes⟩ := hcons
  obtain ⟨c, hok⟩ := get_isOk hs hes hle
  refine ⟨c, hok, ?_⟩
  have hparts := findChild_parts k hs
  simp only [get] at hok
  split at hok <;> rename_i hzero
  · cases hok
  · obtain rfl := Except.ok.inj hok
    have hcount := hparts.le
    have hlt : findChild pg k - 1 < (inter.entries pg).length := by
      rw [Layout.length_entries]
      omega
    refine ⟨(inter.entries pg)[findChild pg k - 1], List.getElem_mem hlt, ?_, ?_, ?_⟩
    · rw [Layout.getElem_entries]
      rfl
    · have hbefore := hparts.before (findChild pg k - 1) (by omega)
      have hcmp : cmpFull (inter.slotKey pg (pg.slot (findChild pg k - 1))) k ≤ 0 := by
        simpa using hbefore
      rw [Layout.getElem_entries]
      exact cmpFull_nonpos.mp hcmp
    · intro e' he' hle'
      obtain ⟨i, hi, rfl⟩ := List.mem_iff_getElem.mp he'
      rw [Layout.length_entries] at hi
      rw [Layout.getElem_entries] at hle' ⊢
      rw [Layout.getElem_entries]
      -- what lies behind the found position is greater than the key
      have hbefore : i < findChild pg k := by
        by_contra hge
        have hafter := hparts.after i (not_lt.mp hge) hi
        have hnot : ¬ cmpFull (inter.slotKey pg (pg.slot i)) k ≤ 0 := by simpa using hafter
        exact hnot (cmpFull_nonpos.mpr hle')
      exact Layout.key_le_key hs (by omega) (by omega)

/-- Routing after a split: every key that the page covered reaches the child that the old
separators and the new one assign to it. -/
theorem follow_assigns (h : Layout.SplitDone .inter left l r newPid s key child)
    (hfront : ∀ e ∈ (inter.entries left).head?, e.1 < key)
    (hleft : ∃ e ∈ (inter.entries left).head?, e.1 ≤ k) (hbelow : ∀ b ∈ inter.high left, k < b) :
    ∃ c, follow l r k = .ok c ∧ Assigns ((key, child) :: inter.entries left) k c ∧
      (hasSplit l k = true → hasSplit r k = false) := by
  obtain ⟨es, fs, hold, hnew⟩ := h.entries
  have hmem : ∀ e, e ∈ (key, child) :: inter.entries left ↔ e ∈ inter.entries l ∨
      e ∈ inter.entries r := by
    intro e
    rw [← List.mem_append, hnew, hold]
    simp only [List.mem_cons, List.mem_append, Layout.childOf]
    tauto
  have hsplit : hasSplit l k = true ↔ s ≤ k := by
    refine Layout.hasSplit_iff.trans ⟨fun ⟨b, hb, hle⟩ => ?_, fun hle => ⟨s, h.leftHigh, hle⟩⟩
    rw [h.leftHigh] at hb
    exact Option.some.inj hb ▸ hle
  have hstay : hasSplit r k = false := by
    rw [← Bool.not_eq_true]
    intro hc
    obtain ⟨b, hb, hle⟩ := Layout.hasSplit_iff.mp hc
    rw [h.rightHigh] at hb
    exact absurd hle (not_le.mpr (hbelow b hb))
  by_cases hside : s ≤ k
  · obtain ⟨c₀, rest, hcons⟩ := h.first
    obtain ⟨c, hok, e, he, hc, hle, hmax⟩ := get_assigns (k := k) h.rightPacked.sorted
      ⟨(s, c₀), by rw [hcons]; rfl, hside⟩
    refine ⟨c, (if_pos (hsplit.mpr hside)).trans hok, ⟨e, (hmem e).mpr (.inr he), hc, hle, ?_⟩,
      fun _ => hstay⟩
    intro e' he' hle'
    rcases (hmem e').mp he' with hl | hr
    · exact ((h.left_lt e' hl).trans_le (h.right_ge e he)).le
    · exact hmax e' hr hle'
  · obtain ⟨c, hok, e, he, hc, hle, hmax⟩ :=
      get_assigns h.leftPacked.sorted (h.front hfront ▸ hleft)
    refine ⟨c, (if_neg fun hc => hside (hsplit.mp hc)).trans hok,
      ⟨e, (hmem e).mpr (.inl he), hc, hle, ?_⟩,
      fun _ => hstay⟩
    intro e' he' hle'
    rcases (hmem e').mp he' with hl | hr
    · exact hmax e' hl hle'
    · exact absurd ((h.right_ge e' hr).trans hle') hside

/-- Every packed inner page without room for a new separator can be split, and the two pages
route as the old one with the new separator would. -/
theorem split_routes (h : Layout.Packed .inter left) (hkey : Layout.InRange key)
    (hchild : child < 2 ^ 32) (habsent : ∀ e ∈ inter.entries left, e.1 ≠ key)
    (habove : ∀ e ∈ (inter.entries left).head?, e.1 < key)
    (hspace : hasSpace left key = false) (level newPid : Nat) :
    ∃ l r s, split left (.initHeader level newPid) newPid key child = .ok (l, r, s) ∧
      Layout.SplitDone .inter left l r newPid s key child ∧
      ∀ k, (∃ e ∈ (inter.entries left).head?, e.1 ≤ k) → (∀ b ∈ inter.high left, k < b) →
        ∃ c, follow l r k = .ok c ∧ Assigns ((key, child) :: inter.entries left) k c ∧
          (hasSplit l k = true → hasSplit r k = false) := by
  obtain ⟨l, r, s, hsplit, hdone⟩ :=
    Layout.split_complete h.inOrder (h.two_le_count hkey.2 hspace) ⟨hkey, habsent,
      fun _ => habove⟩ hchild hspace
      level newPid
  exact ⟨l, r, s, hsplit, hdone, fun k hk hbelow => follow_assigns hdone habove hk hbelow⟩

theorem split_routes_nine : ∃ left key l r s, Layout.Packed .inter left ∧
      hasSpace left key = false ∧
    split left (.initHeader 1 2) 2 key 7 = .ok (l, r, s) ∧
      Layout.SplitDone .inter left l r 2 s key 7 := by
  obtain ⟨left, key, hpacked, hpending, hspace⟩ :=
    Layout.exists_full .inter 711 (by decide) (by decide) (by decide) (by decide)
  obtain ⟨l, r, s, hsplit, hdone, -⟩ :=
    split_routes hpacked hpending.inRange (by decide : 7 < 2 ^ 32) hpending.absent
      (hpending.first rfl) hspace 1 2
  exact ⟨left, key, l, r, s, hpacked, hspace, hsplit, hdone⟩

end BtreeVarlenLayoutIntermediate

end Db7
