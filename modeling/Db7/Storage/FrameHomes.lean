import Db7.Storage.FrameClaims

/-!
# Every frame is the home of one page

A frame is the home of one page, which changes when a claim of it publishes another; the map
leads from each page to its home, but for entries that a `Delete` is about to remove (`Homes`).
Between the calls nothing is claimed, so map and frames agree (`quiet_consistent`). The pin
count is a `u32`: a frame that is pinned 2^32 times looks free, and two claims of it leave a
page in the map that no frame carries (`pins_overflow`).
-/

namespace Db7

open Lib Function

namespace PoolUse

/-! ## The homes of the pages -/

/-- Each frame is the home of one page (`⟨0, 0⟩` before its first): the one it carries, or the
one whose id a claim has put its own over. The map leads from each page to its home, and from a
page without one only where the entry is about to be removed. -/
structure Homes (home : Nat → PageIdentifier) (s : Pool) : Prop where
  shown : ∀ f, (∀ t old, (s.threads t).pc.role.hides ≠ some (f, old)) → home f = s.ids f
  hidden : ∀ t f old, (s.threads t).pc.role.hides = some (f, old) → home f = old
  mapped : ∀ f, (home f).pid ≠ 0 → s.map (home f) = some f
  entries : ∀ id f, s.map id = some f →
    id.pid ≠ 0 ∧ (home f = id ∨ ∃ t, (s.threads t).pc.role.removes = some (f, id))
  carried : ∀ t f id, (s.threads t).pc.role.carries = some (f, id) → s.ids f = id
  filled : ∀ t f id, (s.threads t).pc.role.fills = some (f, id) → home f = id
  stale : ∀ t f old, (s.threads t).pc.role.removes = some (f, old) → home f ≠ old
  empty : ∀ f, (home f).pid = 0 → home f = ⟨0, 0⟩

namespace Homes

variable {u : PoolUse} {s' : Pool} {home : Nat → PageIdentifier} {t : ThreadId}

theorem injective {s : Pool} (h : Homes home s) {f g : Nat} (heq : home f = home g)
    (hne : home f ≠ ⟨0, 0⟩) :
    f = g := by
  have hf := h.mapped f fun hpid => hne (h.empty f hpid)
  have hg := h.mapped g fun hpid => hne (heq.trans (h.empty g hpid))
  rw [heq, hg] at hf
  exact (Option.some.inj hf).symm

/-- A step that leaves ids and map alone, and after which the thread relies on no more. -/
theorem keep (h : Homes home u.pool) (hothers : ∀ v, v ≠ t → s'.threads v = u.pool.threads v)
    (hids : s'.ids = u.pool.ids) (hmap : s'.map = u.pool.map)
    (hhides : (s'.threads t).pc.role.hides = (u.pool.threads t).pc.role.hides)
    (hremoves : (s'.threads t).pc.role.removes = (u.pool.threads t).pc.role.removes)
    (hcarries : ∀ f id, (s'.threads t).pc.role.carries = some (f, id) → u.pool.ids f = id)
    (hfills : ∀ f id, (s'.threads t).pc.role.fills = some (f, id) → home f = id) :
    Homes home s' := by
  have hsame : ∀ v, (s'.threads v).pc.role.hides = (u.pool.threads v).pc.role.hides ∧
      (s'.threads v).pc.role.removes = (u.pool.threads v).pc.role.removes := by
    intro v
    by_cases hv : v = t
    · rw [hv]
      exact ⟨hhides, hremoves⟩
    · rw [hothers v hv]
      exact ⟨rfl, rfl⟩
  exact {
    shown := fun f hf => by
      rw [hids]
      exact h.shown f fun v old hv => hf v old ((hsame v).1.trans hv)
    hidden := fun v f old hv => h.hidden v f old ((hsame v).1.symm.trans hv)
    mapped := fun f hf => by
      rw [hmap]
      exact h.mapped f hf
    entries := fun id f hf => by
      rw [hmap] at hf
      obtain ⟨hpid, hentry⟩ := h.entries id f hf
      exact ⟨hpid, hentry.imp_right fun ⟨v, hv⟩ => ⟨v, (hsame v).2.trans hv⟩⟩
    carried := fun v f id hv => by
      rw [hids]
      by_cases hvt : v = t
      · subst hvt
        exact hcarries f id hv
      · rw [hothers v hvt] at hv
        exact h.carried v f id hv
    filled := fun v f id hv => by
      by_cases hvt : v = t
      · subst hvt
        exact hfills f id hv
      · rw [hothers v hvt] at hv
        exact h.filled v f id hv
    stale := fun v f old hv => h.stale v f old ((hsame v).2.symm.trans hv)
    empty := h.empty }

/-- `SetId`: the frame shows its new page, and is still the home of the old one. -/
theorem setId (h : Homes home u.pool) (hone : u.OneClaim)
    (hothers : ∀ v, v ≠ t → s'.threads v = u.pool.threads v) {call : VictimCall} {f : Nat}
    {old : PageIdentifier} (hpc : (u.pool.threads t).pc = .setId call f old)
    (hpc' : (s'.threads t).pc = .pinVictim call f old)
    (hids : s'.ids = update u.pool.ids f call.id) (hmap : s'.map = u.pool.map) : Homes home s' := by
  have htakes : (u.pool.threads t).pc.role.takes = some f := by rw [hpc]; rfl
  have hold : home f = old := by
    have hshown : home f = u.pool.ids f := by
      refine h.shown f fun v old' hv => ?_
      obtain rfl := hone.claim_unique htakes (PoolPc.takes_of_hides hv)
      rw [hpc] at hv
      cases hv
    rw [hshown]
    exact h.carried t f old (by rw [hpc]; rfl)
  exact {
    shown := fun g hg => by
      have hgf : g ≠ f := fun hc => hg t old (by rw [hpc', hc]; rfl)
      rw [hids, update_of_ne hgf]
      refine h.shown g fun v old' hv => ?_
      have hvt : v ≠ t := by
        rintro rfl
        rw [hpc] at hv
        cases hv
      exact hg v old' (by rw [hothers v hvt]; exact hv)
    hidden := fun v g old' hv => by
      by_cases hvt : v = t
      · subst hvt
        rw [hpc'] at hv
        cases hv
        exact hold
      · rw [hothers v hvt] at hv
        exact h.hidden v g old' hv
    mapped := fun g hg => by
      rw [hmap]
      exact h.mapped g hg
    entries := fun id g hg => by
      rw [hmap] at hg
      obtain ⟨hpid, hentry⟩ := h.entries id g hg
      refine ⟨hpid, hentry.imp_right fun ⟨v, hv⟩ => ⟨v, ?_⟩⟩
      have hvt : v ≠ t := by
        rintro rfl
        rw [hpc] at hv
        cases hv
      rw [hothers v hvt]
      exact hv
    carried := fun v g id hv => by
      by_cases hvt : v = t
      · subst hvt
        rw [hpc'] at hv
        cases hv
        rw [hids, update_self]
      · rw [hothers v hvt] at hv
        have hgf : g ≠ f := by
          rintro rfl
          exact hvt (hone.claim_unique (PoolPc.takes_of_carries hv) htakes)
        rw [hids, update_of_ne hgf]
        exact h.carried v g id hv
    filled := fun v g id hv => by
      by_cases hvt : v = t
      · subst hvt
        rw [hpc'] at hv
        cases hv
      · rw [hothers v hvt] at hv
        exact h.filled v g id hv
    stale := fun v g old' hv => by
      by_cases hvt : v = t
      · subst hvt
        rw [hpc'] at hv
        cases hv
      · rw [hothers v hvt] at hv
        exact h.stale v g old' hv
    empty := h.empty }

/-- `Put`: the frame becomes the home of its new page. -/
theorem publish (h : Homes home u.pool) (hone : u.OneClaim)
    (hothers : ∀ v, v ≠ t → s'.threads v = u.pool.threads v) {call : VictimCall} {f : Nat}
    {old : PageIdentifier}
    (hpc : (u.pool.threads t).pc = .put call f old) (hpc' : (s'.threads t).pc = .delete call f old)
    (hnone : u.pool.map call.id = none) (hids : s'.ids = u.pool.ids)
    (hmap : s'.map = update u.pool.map call.id (some f)) : Homes (update home f call.id) s' := by
  have htakes : (u.pool.threads t).pc.role.takes = some f := by rw [hpc]; rfl
  have hold : home f = old := h.hidden t f old (by rw [hpc]; rfl)
  have hpid : call.id.pid ≠ 0 := by
    have hok := hone.ok t
    rw [hpc] at hok
    exact hok
  -- no frame is the home of the new page yet
  have hfresh : ∀ g, home g ≠ call.id := by
    intro g hg
    have hmapped := h.mapped g (by rw [hg]; exact hpid)
    rw [hg, hnone] at hmapped
    cases hmapped
  have hother : ∀ {v g}, v ≠ t → (u.pool.threads v).pc.role.takes = some g → g ≠ f := by
    rintro v g hvt hv rfl
    exact hvt (hone.claim_unique hv htakes)
  exact {
    shown := fun g hg => by
      rw [hids]
      by_cases hgf : g = f
      · subst hgf
        rw [update_self]
        exact (h.carried t g call.id (by rw [hpc]; rfl)).symm
      · rw [update_of_ne hgf]
        refine h.shown g fun v old' hv => ?_
        by_cases hvt : v = t
        · subst hvt
          rw [hpc] at hv
          cases hv
          exact hgf rfl
        · exact hg v old' (by rw [hothers v hvt]; exact hv)
    hidden := fun v g old' hv => by
      by_cases hvt : v = t
      · subst hvt
        rw [hpc'] at hv
        cases hv
      · rw [hothers v hvt] at hv
        rw [update_of_ne (hother hvt (PoolPc.takes_of_hides hv))]
        exact h.hidden v g old' hv
    mapped := fun g hg => by
      rw [hmap]
      by_cases hgf : g = f
      · subst hgf
        rw [update_self, update_self]
      · rw [update_of_ne hgf] at hg ⊢
        rw [update_of_ne (hfresh g)]
        exact h.mapped g hg
    entries := fun id g hg => by
      rw [hmap] at hg
      by_cases hid : id = call.id
      · subst hid
        rw [update_self] at hg
        cases hg
        exact ⟨hpid, .inl (update_self ..)⟩
      · rw [update_of_ne hid] at hg
        obtain ⟨hid0, hentry⟩ := h.entries id g hg
        refine ⟨hid0, ?_⟩
        rcases hentry with hhome | ⟨v, hv⟩
        · by_cases hgf : g = f
          · subst hgf
            exact .inr ⟨t, by rw [hpc', ← hhome, hold]; rfl⟩
          · exact .inl (by rw [update_of_ne hgf]; exact hhome)
        · refine .inr ⟨v, ?_⟩
          have hvt : v ≠ t := by
            rintro rfl
            rw [hpc] at hv
            cases hv
          rw [hothers v hvt]
          exact hv
    carried := fun v g id hv => by
      rw [hids]
      by_cases hvt : v = t
      · subst hvt
        rw [hpc'] at hv
        exact h.carried v g id (by rw [hpc]; exact hv)
      · rw [hothers v hvt] at hv
        exact h.carried v g id hv
    filled := fun v g id hv => by
      by_cases hvt : v = t
      · subst hvt
        rw [hpc'] at hv
        cases hv
        exact update_self ..
      · rw [hothers v hvt] at hv
        rw [update_of_ne (hother hvt (PoolPc.takes_of_fills hv))]
        exact h.filled v g id hv
    stale := fun v g old' hv => by
      by_cases hvt : v = t
      · subst hvt
        rw [hpc'] at hv
        cases hv
        rw [update_self, ← hold]
        exact (hfresh f).symm
      · rw [hothers v hvt] at hv
        rw [update_of_ne (hother hvt (PoolPc.takes_of_removes hv))]
        exact h.stale v g old' hv
    empty := fun g hg => by
      by_cases hgf : g = f
      · subst hgf
        rw [update_self] at hg
        exact absurd hg hpid
      · rw [update_of_ne hgf] at hg ⊢
        exact h.empty g hg }

/-- `Delete`: the entry of the page that has lost its home goes. -/
theorem remove (h : Homes home u.pool) (hothers : ∀ v, v ≠ t → s'.threads v = u.pool.threads v)
    {call : VictimCall} {f : Nat} {old : PageIdentifier}
    (hpc : (u.pool.threads t).pc = .delete call f old)
    (hpc' : call.isIO = true ∧ (s'.threads t).pc = .enqueue call f ∨ call.isIO = false ∧
      (s'.threads t).pc = .idle)
    (hids : s'.ids = u.pool.ids)
    (hmap : s'.map = if u.pool.map old = some f then update u.pool.map old none else u.pool.map) :
    Homes home s' := by
  have hstale : home f ≠ old := h.stale t f old (by rw [hpc]; rfl)
  have hhides : (s'.threads t).pc.role.hides = none ∧ (s'.threads t).pc.role.removes = none := by
    rcases hpc' with ⟨-, hpc'⟩ | ⟨-, hpc'⟩ <;> rw [hpc'] <;> exact ⟨rfl, rfl⟩
  have hcarries : ∀ g id, (s'.threads t).pc.role.carries = some (g, id) →
      (u.pool.threads t).pc.role.carries = some (g, id) := by
    intro g id hg
    rcases hpc' with ⟨-, hpc'⟩ | ⟨-, hpc'⟩ <;> rw [hpc'] at hg <;> cases hg
    rw [hpc]
    rfl
  have hfills : ∀ g id, (s'.threads t).pc.role.fills = some (g, id) →
      (u.pool.threads t).pc.role.fills = some (g, id) := by
    intro g id hg
    rcases hpc' with ⟨-, hpc'⟩ | ⟨-, hpc'⟩ <;> rw [hpc'] at hg <;> cases hg
    rw [hpc]
    rfl
  -- an entry that is left was there, and is not the one to be removed
  have hleft : ∀ id g, s'.map id = some g → u.pool.map id = some g ∧ ¬(g = f ∧ id = old) := by
    intro id g hg
    rw [hmap] at hg
    split at hg
    · by_cases hid : id = old
      · rw [hid, update_self] at hg
        cases hg
      · rw [update_of_ne hid] at hg
        exact ⟨hg, fun hc => hid hc.2⟩
    · rename_i hnot
      refine ⟨hg, ?_⟩
      rintro ⟨rfl, rfl⟩
      exact hnot hg
  exact {
    shown := fun g hg => by
      rw [hids]
      refine h.shown g fun v old' hv => ?_
      have hvt : v ≠ t := by
        rintro rfl
        rw [hpc] at hv
        cases hv
      exact hg v old' (by rw [hothers v hvt]; exact hv)
    hidden := fun v g old' hv => by
      by_cases hvt : v = t
      · subst hvt
        rw [hhides.1] at hv
        cases hv
      · rw [hothers v hvt] at hv
        exact h.hidden v g old' hv
    mapped := fun g hg => by
      have hmapped := h.mapped g hg
      rw [hmap]
      split
      · rename_i hentry
        have hne : home g ≠ old := by
          rintro rfl
          rw [hentry] at hmapped
          cases hmapped
          exact hstale rfl
        rw [update_of_ne hne]
        exact hmapped
      · exact hmapped
    entries := fun id g hg => by
      obtain ⟨hold, hnot⟩ := hleft id g hg
      obtain ⟨hpid, hentry⟩ := h.entries id g hold
      refine ⟨hpid, hentry.imp_right fun ⟨v, hv⟩ => ⟨v, ?_⟩⟩
      have hvt : v ≠ t := by
        rintro rfl
        rw [hpc] at hv
        cases hv
        exact hnot ⟨rfl, rfl⟩
      rw [hothers v hvt]
      exact hv
    carried := fun v g id hv => by
      rw [hids]
      by_cases hvt : v = t
      · subst hvt
        exact h.carried v g id (hcarries g id hv)
      · rw [hothers v hvt] at hv
        exact h.carried v g id hv
    filled := fun v g id hv => by
      by_cases hvt : v = t
      · subst hvt
        exact h.filled v g id (hfills g id hv)
      · rw [hothers v hvt] at hv
        exact h.filled v g id hv
    stale := fun v g old' hv => by
      by_cases hvt : v = t
      · subst hvt
        rw [hhides.2] at hv
        cases hv
      · rw [hothers v hvt] at hv
        exact h.stale v g old' hv
    empty := h.empty }

/-- `UndoState` shows the old page again. -/
theorem restore (h : Homes home u.pool) (hone : u.OneClaim)
    (hothers : ∀ v, v ≠ t → s'.threads v = u.pool.threads v) {id old : PageIdentifier} {f new : Nat}
    (hpc : (u.pool.threads t).pc = .undoSetId id f old new)
    (hpc' : (s'.threads t).pc = .undoClearIOInProgress id f new)
    (hids : s'.ids = update u.pool.ids f old) (hmap : s'.map = u.pool.map) : Homes home s' := by
  have htakes : (u.pool.threads t).pc.role.takes = some f := by rw [hpc]; rfl
  have hold : home f = old := h.hidden t f old (by rw [hpc]; rfl)
  exact {
    shown := fun g hg => by
      rw [hids]
      by_cases hgf : g = f
      · subst hgf
        rw [update_self, hold]
      · rw [update_of_ne hgf]
        refine h.shown g fun v old' hv => ?_
        by_cases hvt : v = t
        · subst hvt
          rw [hpc] at hv
          cases hv
          exact hgf rfl
        · exact hg v old' (by rw [hothers v hvt]; exact hv)
    hidden := fun v g old' hv => by
      by_cases hvt : v = t
      · subst hvt
        rw [hpc'] at hv
        cases hv
      · rw [hothers v hvt] at hv
        exact h.hidden v g old' hv
    mapped := fun g hg => by
      rw [hmap]
      exact h.mapped g hg
    entries := fun id' g hg => by
      rw [hmap] at hg
      obtain ⟨hpid, hentry⟩ := h.entries id' g hg
      refine ⟨hpid, hentry.imp_right fun ⟨v, hv⟩ => ⟨v, ?_⟩⟩
      have hvt : v ≠ t := by
        rintro rfl
        rw [hpc] at hv
        cases hv
      rw [hothers v hvt]
      exact hv
    carried := fun v g id' hv => by
      by_cases hvt : v = t
      · subst hvt
        rw [hpc'] at hv
        cases hv
      · rw [hothers v hvt] at hv
        have hgf : g ≠ f := by
          rintro rfl
          exact hvt (hone.claim_unique (PoolPc.takes_of_carries hv) htakes)
        rw [hids, update_of_ne hgf]
        exact h.carried v g id' hv
    filled := fun v g id' hv => by
      by_cases hvt : v = t
      · subst hvt
        rw [hpc'] at hv
        cases hv
      · rw [hothers v hvt] at hv
        exact h.filled v g id' hv
    stale := fun v g old' hv => by
      by_cases hvt : v = t
      · subst hvt
        rw [hpc'] at hv
        cases hv
      · rw [hothers v hvt] at hv
        exact h.stale v g old' hv
    empty := h.empty }

/-- A step moves at most one home, in `Put`. -/
theorem of_effect (h : Homes home u.pool) (hone : u.OneClaim)
    (hothers : ∀ v, v ≠ t → s'.threads v = u.pool.threads v)
    (heff : Pool.Effect u.pool s' (u.pool.threads t).pc (s'.threads t).pc) :
    ∃ home', Homes home' s' := by
  cases heff with
  | quiet hrole hids hraised hmap hreads =>
      exact ⟨home, h.keep hothers hids hmap (by rw [hrole]) (by rw [hrole])
        (fun f id hv => h.carried t f id (by rw [← hrole]; exact hv))
        (fun f id hv => h.filled t f id (by rw [← hrole]; exact hv))⟩
  | take g hrole hrole' hzero hlatched hids hraised hmap hreads =>
      exact ⟨home, h.keep hothers hids hmap (by rw [hrole, hrole']) (by rw [hrole, hrole'])
        (fun f id hv => by rw [hrole'] at hv; cases hv) fun f id hv => by
          rw [hrole'] at hv; cases hv⟩
  | release g hrole hrole' hids hraised hmap hreads =>
      exact ⟨home, h.keep hothers hids hmap (by rw [hrole, hrole']) (by rw [hrole, hrole'])
        (fun f id hv => by rw [hrole'] at hv; cases hv) fun f id hv => by
          rw [hrole'] at hv; cases hv⟩
  | readId call g hpc hpc' hids hraised hmap hreads =>
      exact ⟨home, h.keep hothers hids hmap (by rw [hpc, hpc']; rfl) (by rw [hpc, hpc']; rfl)
        (fun f id hv => by rw [hpc'] at hv; cases hv; rfl) fun f id hv => by
          rw [hpc'] at hv; cases hv⟩
  | setId call g old hpc hpc' hids hraised hmap hreads =>
      exact ⟨home, h.setId hone hothers hpc hpc' hids hmap⟩
  | raise call g old hpc hpc' hids hraised hmap hreads =>
      exact ⟨home, h.keep hothers hids hmap (by rw [hpc, hpc']; rfl) (by rw [hpc, hpc']; rfl)
        (fun f id hv => h.carried t f id (by rw [hpc]; rw [hpc'] at hv; exact hv))
        fun f id hv => by rw [hpc'] at hv; cases hv⟩
  | publish call g old hpc hpc' hnone hids hraised hmap hreads =>
      exact ⟨update home g call.id, h.publish hone hothers hpc hpc' hnone hids hmap⟩
  | remove call g old hpc hpc' hids hraised hmap hreads =>
      exact ⟨home, h.remove hothers hpc hpc' hids hmap⟩
  | enqueue call g hpc hpc' hids hraised hmap hreads =>
      exact ⟨home, h.keep hothers hids hmap (by rw [hpc, hpc']; rfl) (by rw [hpc, hpc']; rfl)
        (fun f id hv => by rw [hpc'] at hv; cases hv) fun f id hv => by rw [hpc'] at hv; cases hv⟩
  | restore id g old new hpc hpc' hids hraised hmap hreads =>
      exact ⟨home, h.restore hone hothers hpc hpc' hids hmap⟩
  | clear g hpc hrole' hids hraised hmap hreads =>
      have hrole : (u.pool.threads t).pc.role.hides = none ∧
          (u.pool.threads t).pc.role.removes = none := by
        rcases hpc with ⟨id, new, hpc⟩ | hpc <;> rw [hpc] <;> exact ⟨rfl, rfl⟩
      exact ⟨home, h.keep hothers hids hmap (by rw [hrole', hrole.1]) (by rw [hrole', hrole.2])
        (fun f id hv => by rw [hrole'] at hv; cases hv) fun f id hv => by
          rw [hrole'] at hv; cases hv⟩
  | signal g hpc hpc' hmem hids hraised hmap hreads =>
      exact ⟨home, h.keep hothers hids hmap (by rw [hpc, hpc']; rfl) (by rw [hpc, hpc']; rfl)
        (fun f id hv => by rw [hpc'] at hv; cases hv) fun f id hv => by rw [hpc'] at hv; cases hv⟩

theorem init : Homes (fun _ => ⟨0, 0⟩) Pool.init where
  shown _ _ := rfl
  hidden _ _ _ hv := by cases hv
  mapped _ hf := absurd rfl hf
  entries _ _ hf := by cases hf
  carried _ _ _ hv := by cases hv
  filled _ _ _ hv := by cases hv
  stale _ _ _ hv := by cases hv
  empty _ _ := rfl

end Homes

theorem pool_step {n : Nat} {u u' : PoolUse} {a : PoolAction} (hs : u.step n (.call a) = some u') :
    u.pool.step n a = some u'.pool := by
  cases a with
  | unpin t id f =>
      simp only [step, Option.ite_none_right_eq_some, Option.map_eq_some_iff] at hs
      obtain ⟨-, s', hpool, rfl⟩ := hs
      exact hpool
  | run | pin | reserve | signal =>
      simp only [step, Option.map_eq_some_iff] at hs
      obtain ⟨s', hpool, rfl⟩ := hs
      exact hpool

/-- What holds along a run. -/
structure Inv (u : PoolUse) : Prop extends OneClaim u where
  homes : ∃ home, Homes home u.pool

theorem inv_step {n : Nat} {u u' : PoolUse} {a : PoolUseAction} (h : u.Inv) (hc : u.NoOverflow a)
    (hs : u.step n a = some u') : u'.Inv where
  toOneClaim := h.toOneClaim.step hc hs
  homes := by
    obtain ⟨home, hhomes⟩ := h.homes
    cases a with
    | wait t id f =>
        simp only [step, Option.ite_none_right_eq_some] at hs
        obtain ⟨-, hs⟩ := hs
        cases hs
        exact ⟨home, hhomes⟩
    | call a =>
        change u.pool.NoPinOverflow a at hc
        have hpool := pool_step hs
        exact hhomes.of_effect h.toOneClaim (Pool.threadStep_step h.balanced hc hpool).others
          (Pool.effect_step hpool)

theorem inv_reachable {n : Nat} {u : PoolUse} (hu : (system n).ReachableBy NoOverflow u) : u.Inv :=
  hu.invariant
    (fun _ hinit => by rw [show _ = init from hinit]; exact ⟨OneClaim.init, _, Homes.init⟩)
    fun _ _ _ h hc hs => inv_step h hc hs

/-- Once all calls have returned and all pins are released, map and frames agree. -/
theorem quiet_consistent {n : Nat} {u : PoolUse} (hu : (system n).ReachableBy NoOverflow u)
    (hquiet : u.Quiet) :
    u.Consistent := by
  have h := inv_reachable hu
  obtain ⟨home, hhomes⟩ := h.homes
  have hidle : ∀ t, (u.pool.threads t).pc = .idle := fun t => by rw [hquiet t]
  have hhome : ∀ f, home f = (u.pool.frames f).id := by
    refine fun f => hhomes.shown f fun t old ht => ?_
    rw [hidle t] at ht
    cases ht
  have hentries : ∀ id f, u.pool.map id = some f → id.pid ≠ 0 ∧ (u.pool.frames f).id = id := by
    intro id f hmap
    obtain ⟨hpid, hentry⟩ := hhomes.entries id f hmap
    rcases hentry with heq | ⟨t, ht⟩
    · exact ⟨hpid, (hhome f).symm.trans heq⟩
    · rw [hidle t] at ht
      cases ht
  exact {
    unique := fun f g heq hne =>
      hhomes.injective ((hhome f).trans (heq.trans (hhome g).symm)) (by rw [hhome f]; exact hne)
    map := fun id f hne => by
      refine ⟨fun hmap => (hentries id f hmap).2, fun hid => ?_⟩
      have heq : home f = id := (hhome f).trans hid
      have hmapped := hhomes.mapped f fun hpid => hne (heq.symm.trans (hhomes.empty f hpid))
      rwa [heq] at hmapped
    empty := by
      rw [← Option.not_isSome_iff_eq_none]
      intro hsome
      obtain ⟨f, hmap⟩ := Option.isSome_iff_exists.mp hsome
      exact (hentries _ f hmap).1 rfl
    refCount := fun f => (h.balanced.refs f).total_zero fun t => by rw [hquiet t]; rfl
    ioInProgress := fun f => by
      rw [← Bool.not_eq_true]
      intro hraised
      rcases h.raised_of (f := f) hraised with hread | ⟨t, ht⟩
      · obtain ⟨t, id, hmem⟩ := h.awaited f (.inl hread)
        have hpos := List.count_pos_iff.mpr hmem
        have hwaits := h.waits t (id, f)
        rw [hquiet t] at hwaits
        simp at hwaits
        omega
      · rw [hidle t] at ht
        cases ht }

instance (u : PoolUse) : (a : PoolUseAction) → Decidable (u.NoOverflow a)
  | .call a => inferInstanceAs (Decidable (u.pool.NoPinOverflow a))
  | .wait .. => inferInstanceAs (Decidable True)

/-- A page is read into the pool and given back. -/
theorem quiet_consistent_read : ∃ u, (system bufferPoolPageNum).ReachableBy NoOverflow u ∧ u.Quiet ∧
    u.pool.map ⟨1, 1⟩ = some 0 ∧ u.Consistent := by
  have hrun : ((system bufferPoolPageNum).exec NoOverflow init (.call (.pin 0 ⟨1, 1⟩) ::
      List.replicate 14 (.call (.run 0)) ++ .call (.signal 1 0) :: List.replicate 3
        (.call (.run 1)) ++
      [.wait 0 ⟨1, 1⟩ 0, .call (.unpin 0 ⟨1, 1⟩ 0)])).isSome := by decide
  have hu : (system bufferPoolPageNum).ReachableBy NoOverflow (Option.get _ hrun) :=
    ⟨init, rfl, TSys.Steps.of_exec _ (Option.some_get _).symm⟩
  have hquiet : (Option.get _ hrun).Quiet := by
    intro t
    rcases t with _ | _ | t <;> rfl
  exact ⟨_, hu, hquiet, rfl, quiet_consistent hu hquiet⟩

/-! ## Frames pinned 2^32 times -/

section Overflow

variable {n : Nat} {u : PoolUse} {f : Nat} {t : ThreadId}

/-- `u` with frame `f`, the map and the threads as given. -/
def scene (u : PoolUse) (f : Nat) (x : Frame) (map : PageIdentifier → Option Nat)
    (threads : ThreadId → PoolThread) : PoolUse :=
  ⟨{ u.pool with frames := update u.pool.frames f x, map := map, threads := threads }, fun _ => []⟩

section Scene

variable {x : Frame} {map : PageIdentifier → Option Nat} {threads : ThreadId → PoolThread}
  {held : List (PageIdentifier × Nat)} {id old : PageIdentifier}

/-- A call claims the evictable frame it looks at. -/
theorem scene_claim {call : VictimCall} (ht : threads t = ⟨.tryLatch call f, held⟩) :
    (system n).Steps TSys.Always (scene u f ⟨old, 0, false, false, none⟩ map threads)
      (scene u f ⟨call.id, 1, false, false, some t⟩ map (update threads t
        ⟨if call.isIO then .setIOInProgress call f old else .unlatch call f old, held⟩)) := by
  have hfree : (system n).Steps TSys.Always (scene u f ⟨old, 0, false, false, none⟩ map threads)
      (scene u f ⟨old, 0, false, false, some t⟩ map (update threads t ⟨.readId call f, held⟩)) := by
    refine TSys.Steps.of_exec (List.replicate 4 (.call (.run t))) ?_
    simp [TSys.exec, TSys.Always, system, List.replicate, step, scene, Pool.step, Pool.runThread,
      ht, Pool.setFrame,
      Pool.goto, Pool.returnsPin, Frame.setLatch]
  refine hfree.trans (TSys.Steps.of_exec (List.replicate 3 (.call (.run t))) ?_)
  simp [TSys.exec, TSys.Always, system, List.replicate, step, scene, Pool.step,
    Pool.runThread, Pool.setFrame,
    Pool.goto, Pool.returnsPin, Frame.setId, Frame.pin, u32]

/-- `Reserve` stands before `Put`. -/
theorem scene_reserve (ht : threads t = ⟨.tryLatch ⟨id, false⟩ f, held⟩) :
    (system n).Steps TSys.Always (scene u f ⟨old, 0, false, false, none⟩ map threads)
      (scene u f ⟨id, 1, false, false, none⟩ map
        (update threads t ⟨.put ⟨id, false⟩ f old, held⟩)) := by
  refine (scene_claim ht).trans (TSys.Steps.of_exec [.call (.run t)] ?_)
  simp [TSys.exec, TSys.Always, system, step, scene, Pool.step, Pool.runThread, Pool.setFrame,
    Pool.goto, Pool.returnsPin, Frame.setLatch]

/-- The frame is published and given back. -/
theorem scene_give (ht : threads t = ⟨.put ⟨id, false⟩ f old, []⟩) (hmap : map id = none)
    (hne : old ≠ id) :
    (system n).Steps TSys.Always (scene u f x map threads)
      (scene u f x.unpin (if map old = some f then update (update map id (some f)) old none
        else update map id (some f))
        (update threads t ⟨.idle, []⟩)) := by
  refine TSys.Steps.of_exec [.call (.run t), .call (.run t), .call (.unpin t id f)] ?_
  by_cases hold : map old = some f <;>
    simp [TSys.exec, TSys.Always, system, step, scene, Pool.step, Pool.runThread, ht, Pool.setFrame,
      Pool.putMap, hmap,
      Pool.deleteMap, hne, hold, Pool.goto, Pool.give, Pool.returnsPin]

/-- A page is pinned once more. -/
theorem scene_pin (ht : threads t = ⟨.idle, held⟩) (hmap : map x.id = some f)
    (hpid : x.id.pid ≠ 0 ∧ x.id.pid ≠ 2 ^ 32 - 1) (hio : x.ioInProgress = false) :
    (system n).Steps TSys.Always (scene u f x map threads)
      (scene u f x.pin map (update threads t ⟨.idle, (x.id, f) :: held⟩)) := by
  refine TSys.Steps.of_exec [.call (.pin t x.id), .call (.run t), .call (.run t), .call (.run t),
    .wait t x.id f] ?_
  simp [TSys.exec, TSys.Always, system, step, scene, Pool.step, Pool.runThread, ht,
    Pool.setFrame, hmap, hpid.1,
    show ¬x.id.pid = 4294967295 from hpid.2, hio, Frame.pin, Pool.goto, Pool.give, Pool.returnsPin]

theorem scene_unpin {p : PageIdentifier × Nat} (ht : threads t = ⟨.idle, p :: held⟩)
    (hp : p.2 = f) :
    (system n).Steps TSys.Always (scene u f x map threads)
      (scene u f x.unpin map (update threads t ⟨.idle, held⟩)) := by
  subst hp
  refine TSys.Steps.of_exec [.call (.unpin t p.1 p.2)] ?_
  simp [TSys.exec, TSys.Always, system, step, scene, Pool.step, ht, Pool.setFrame]

/-- Each pin adds one to the count. -/
theorem scene_pins (ht : threads t = ⟨.idle, []⟩) (hmap : map id = some f)
    (hpid : id.pid ≠ 0 ∧ id.pid ≠ 2 ^ 32 - 1) (k : Nat) :
    (system n).Steps TSys.Always (scene u f ⟨id, 0, false, false, none⟩ map threads)
      (scene u f ⟨id, u32 k, false, false, none⟩ map
        (update threads t ⟨.idle, List.replicate k (id, f)⟩)) := by
  induction k with
  | zero =>
      have hsame : update threads t ⟨.idle, List.replicate 0 (id, f)⟩ = threads := by
        rw [List.replicate_zero, ← ht, update_eq_self]
      rw [hsame]
      exact .refl
  | succ k ih =>
      have hpinned := update_self t ⟨.idle, List.replicate k (id, f)⟩ threads
      have hpin :=
        scene_pin (n := n) (u := u) (x := ⟨id, u32 k, false, false, none⟩) hpinned hmap hpid rfl
      have hcount : u32 (u32 k + 1) = u32 (k + 1) := Nat.mod_add_mod ..
      rw [update_idem, Frame.pin, hcount] at hpin
      exact ih.trans hpin

/-- Each unpin takes one off, around the end of the `u32`. -/
theorem scene_unpins {k c : Nat} (hc : k ≤ c) (hlt : c < 2 ^ 32)
    (ht : threads t = ⟨.idle, List.replicate k (id, f)⟩) :
    (system n).Steps TSys.Always (scene u f ⟨old, c, false, false, none⟩ map threads)
      (scene u f ⟨old, c - k, false, false, none⟩ map (update threads t ⟨.idle, []⟩)) := by
  induction k generalizing c threads with
  | zero =>
      have hsame : update threads t ⟨.idle, []⟩ = threads := by
        rw [← List.replicate_zero (a := (id, f)), ← ht, update_eq_self]
      rw [hsame]
      exact .refl
  | succ k ih =>
      have hpred : u32Pred c = c - 1 := if_neg (by omega)
      have hunpin :
          (system n).Steps TSys.Always (scene u f ⟨old, c, false, false, none⟩ map threads)
          (scene u f ⟨old, u32Pred c, false, false, none⟩ map
            (update threads t ⟨.idle, List.replicate k (id, f)⟩)) :=
        scene_unpin (p := (id, f)) (ht.trans rfl) rfl
      rw [hpred] at hunpin
      have hrest :=
        ih (c := c - 1) (by omega) (by omega)
          (update_self t ⟨.idle, List.replicate k (id, f)⟩ threads)
      rw [update_idem, show c - 1 - k = c - (k + 1) by omega] at hrest
      exact hunpin.trans hrest

end Scene

/-- A read is about to be queued for the claimed frame. -/
theorem scene_publish {map : PageIdentifier → Option Nat} {threads : ThreadId → PoolThread}
    {id old : PageIdentifier}
    (ht : threads t = ⟨.setIOInProgress ⟨id, true⟩ f old, []⟩) (hmap : map id = none) :
    (system n).Steps TSys.Always (scene u f ⟨id, 1, false, false, some t⟩ map threads)
      (scene u f ⟨id, 1, false, true, none⟩
        (if update map id (some f) old = some f then update (update map id (some f)) old none
          else update map id (some f))
        (update threads t ⟨.enqueue ⟨id, true⟩ f, []⟩)) := by
  have hclaimed : (system n).Steps TSys.Always (scene u f ⟨id, 1, false, false, some t⟩ map threads)
      (scene u f ⟨id, 1, false, true, none⟩ (update map id (some f))
        (update threads t ⟨.delete ⟨id, true⟩ f old, []⟩)) := by
    refine TSys.Steps.of_exec [.call (.run t), .call (.run t), .call (.run t)] ?_
    simp [TSys.exec, TSys.Always, system, step, scene, Pool.step, Pool.runThread, ht, Pool.setFrame,
      Pool.putMap, hmap,
      Pool.goto, Pool.returnsPin, Frame.setIOInProgress, Frame.setLatch]
  refine hclaimed.trans (TSys.Steps.of_exec [.call (.run t)] ?_)
  by_cases hold : update map id (some f) old = some f <;>
    simp [TSys.exec, TSys.Always, system, step, scene, Pool.step, Pool.runThread, Pool.deleteMap,
      hold, Pool.goto,
      Pool.returnsPin]

/-- A read fills the claimed frame, and the page is given back. -/
theorem scene_read {map : PageIdentifier → Option Nat} {threads : ThreadId → PoolThread}
    {id old : PageIdentifier}
    (ht : threads t = ⟨.setIOInProgress ⟨id, true⟩ f old, []⟩) (hreads : u.pool.reads = [])
    (hmap : map id = none) (hne : old ≠ id) :
    (system n).Steps TSys.Always (scene u f ⟨id, 1, false, false, some t⟩ map threads)
      (scene u f ⟨id, 0, false, false, none⟩
        (if map old = some f then update (update map id (some f)) old none
          else update map id (some f))
        (update threads t ⟨.idle, []⟩)) := by
  have hpublished := scene_publish (n := n) (u := u) ht hmap
  rw [update_of_ne hne] at hpublished
  generalize (if map old = some f then update (update map id (some f)) old none
    else update map id (some f)) = map'
    at hpublished ⊢
  obtain ⟨⟨frames, map₀, head, next, reads, threads₀⟩, unwaited⟩ := u
  change reads = [] at hreads
  subst hreads
  have hpinned : (system n).Steps TSys.Always
      (scene ⟨⟨frames, map₀, head, next, [], threads₀⟩, unwaited⟩ f ⟨id, 1, false, true, none⟩ map'
        (update threads t ⟨.enqueue ⟨id, true⟩ f, []⟩))
      ⟨⟨update frames f ⟨id, 1, false, true, none⟩, map', head, next, [f],
        update threads t ⟨.idle, [(id, f)]⟩⟩,
        update (fun _ => []) t [(id, f)]⟩ := by
    refine TSys.Steps.of_exec [.call (.run t)] ?_
    simp [TSys.exec, TSys.Always, system, step, scene, Pool.step, Pool.runThread, Pool.give,
      Pool.returnsPin]
  refine (hpublished.trans hpinned).trans (TSys.Steps.of_exec [.call (.signal t f), .call (.run t),
    .call (.run t), .call (.run t), .wait t id f, .call (.unpin t id f)] ?_)
  simp [TSys.exec, TSys.Always, system, step, scene, Pool.step, Pool.runThread, Pool.setFrame,
    Pool.goto, Pool.returnsPin,
    Frame.setLatch, Frame.clearIOInProgress, Frame.unpin, u32Pred]

/-- Nothing is pinned, the sweep stands at `h`, and the pages from `h + 1` on of table 1 and
those of other tables have not been in the pool. -/
structure Rested (h : Nat) (next : Nat → Nat) (threads : ThreadId → PoolThread) (u : PoolUse) :
    Prop where
  frames : ∀ f, ∃ id, u.pool.frames f = ⟨id, 0, false, false, none⟩ ∧ id.pid ≤ h
  map : ∀ id : PageIdentifier, id.tblId ≠ 1 ∨ id.pid = 0 ∨ h < id.pid → u.pool.map id = none
  sweepHead : u.pool.sweepHead = h
  nextPid : u.pool.nextPid = next
  reads : u.pool.reads = []
  threads : u.pool.threads = threads
  unwaited : u.unwaited = fun _ => []

/-- The first page is in frame 0. -/
structure First (u : PoolUse) : Prop where
  frame : u.pool.frames 0 = ⟨⟨1, 1⟩, 0, false, false, none⟩
  map : u.pool.map ⟨1, 1⟩ = some 0

namespace Rested

variable {h : Nat} {next : Nat → Nat} {threads : ThreadId → PoolThread}

/-- A `Pin` of a page that is not in the pool stops at the frame under the sweep head. -/
theorem sweep (hu : u.Rested h next threads) (hidle : threads 0 = ⟨.idle, []⟩)
    (hlt : h + 1 < 2 ^ 32) {id old : PageIdentifier} (hmap : u.pool.map id = none)
    (hpid : id.pid ≠ 0 ∧ id.pid ≠ 2 ^ 32 - 1)
    (hframe : u.pool.frames (h % n) = ⟨old, 0, false, false, none⟩) :
    (system n).Steps TSys.Always u (scene ⟨{ u.pool with sweepHead := h + 1 }, fun _ => []⟩ (h % n)
      ⟨old, 0, false, false, none⟩ u.pool.map
        (update threads 0 ⟨.tryLatch ⟨id, true⟩ (h % n), []⟩)) := by
  have hsame : update u.pool.frames (h % n) ⟨old, 0, false, false, none⟩ = u.pool.frames := by
    rw [← hframe, update_eq_self]
  have hnext : u32 (h + 1) = h + 1 := Nat.mod_eq_of_lt hlt
  refine TSys.Steps.of_exec [.call (.pin 0 id), .call (.run 0), .call (.run 0)] ?_
  simp [TSys.exec, TSys.Always, system, step, scene, Pool.step, Pool.runThread, hu.threads,
    hu.sweepHead, hu.unwaited,
    hidle, hmap, hpid.1, show ¬id.pid = 4294967295 from hpid.2, hnext, hsame, Pool.goto,
      Pool.returnsPin]

/-- A page is read into the frame under the sweep head, and given back. -/
theorem round (hu : u.Rested h next threads) (hidle : threads 0 = ⟨.idle, []⟩)
    (hlt : h + 1 < 2 ^ 32 - 1) :
    ∃ u' id, (system n).Steps TSys.Always u u' ∧ u'.Rested (h + 1) next threads ∧
      (u.pool.frames (h % n)).id = id ∧
      u'.pool.frames = update u.pool.frames (h % n) ⟨⟨1, h + 1⟩, 0, false, false, none⟩ ∧
      u'.pool.map = if u.pool.map id = some (h % n) then
          update (update u.pool.map ⟨1, h + 1⟩ (some (h % n))) id none
        else update u.pool.map ⟨1, h + 1⟩ (some (h % n)) := by
  obtain ⟨id, hframe, hid⟩ := hu.frames (h % n)
  have hmap := hu.map ⟨1, h + 1⟩ (.inr (.inr (Nat.lt_succ_self h)))
  have hne : id ≠ ⟨1, h + 1⟩ := by
    rintro rfl
    simp at hid
  have hpid : h + 1 ≠ 0 ∧ h + 1 ≠ 2 ^ 32 - 1 := by omega
  have hsweep := hu.sweep (n := n) hidle (by omega) hmap hpid hframe
  have hread := (hsweep.trans (scene_claim (update_self ..))).trans
    (scene_read (update_self ..) hu.reads hmap hne)
  have hthreads : update threads 0 ⟨.idle, []⟩ = threads := by rw [← hidle, update_eq_self]
  rw [update_idem, update_idem, hthreads] at hread
  refine ⟨_, id, hread, ⟨fun f => ?_, fun id' hid' => ?_, rfl, hu.nextPid, hu.reads, rfl, rfl⟩,
    by rw [hframe], rfl, rfl⟩
  · by_cases hf : f = h % n
    · subst hf
      exact ⟨⟨1, h + 1⟩, update_self .., Nat.le_refl _⟩
    · obtain ⟨id', hframe', hid'⟩ := hu.frames f
      exact ⟨id', (update_of_ne hf ..).trans hframe', Nat.le_succ_of_le hid'⟩
  · have hold := hu.map id' (hid'.imp_right fun hp => hp.imp_right fun hlt => by omega)
    have hne' : id' ≠ ⟨1, h + 1⟩ := by
      rintro rfl
      simp at hid'
    show (if u.pool.map id = some (h % n) then _ else _ : PageIdentifier → Option Nat) id' = none
    split
    · by_cases hid'' : id' = id
      · rw [hid'', update_self]
      · rw [update_of_ne hid'', update_of_ne hne', hold]
    · rw [update_of_ne hne', hold]

/-- A thread calls `Reserve` and stops at the frame under the sweep head. -/
theorem enter (hu : u.Rested h next threads) (ht : threads t = ⟨.idle, []⟩) (tbl : Nat)
    (hnext : next tbl = 1) (hlt : h + 1 < 2 ^ 32) :
    ∃ u', (system n).Steps TSys.Always u u' ∧ u'.Rested (h + 1) (update next tbl 2)
        (update threads t ⟨.tryLatch ⟨⟨tbl, 1⟩, false⟩ (h % n), []⟩) ∧
      u'.pool.frames = u.pool.frames ∧ u'.pool.map = u.pool.map := by
  have hbelow : 1 < bufferPoolPageNum := by decide
  have hhead : u32 (h + 1) = h + 1 := Nat.mod_eq_of_lt hlt
  have hnow : u32 2 = 2 := rfl
  refine ⟨⟨{ u.pool with
      sweepHead := h + 1
      nextPid := update next tbl 2
      threads := update threads t ⟨.tryLatch ⟨⟨tbl, 1⟩, false⟩ (h % n), []⟩ }, fun _ => []⟩,
    TSys.Steps.of_exec [.call (.reserve t tbl), .call (.run t)] ?_,
    ⟨fun f => ?_, fun id hid => ?_, rfl, rfl, hu.reads, rfl, rfl⟩, rfl, rfl⟩
  · simp [TSys.exec, TSys.Always, system, step, Pool.step, Pool.runThread, hu.threads,
      hu.sweepHead, hu.unwaited,
      hu.nextPid, ht, hnext, hbelow, hhead, hnow, Pool.goto, Pool.returnsPin]
  · obtain ⟨id, hframe, hid⟩ := hu.frames f
    exact ⟨id, hframe, Nat.le_succ_of_le hid⟩
  · exact hu.map id (hid.imp_right fun hp => hp.imp_right fun hlt => by omega)

/-- Further pages go into other frames. -/
theorem rounds (hu : u.Rested h next threads) (hfirst : u.First)
    (hidle : threads 0 = ⟨.idle, []⟩) (k : Nat)
    (hn : ∀ i, i < k → (h + i) % n ≠ 0) (hlt : h + k < 2 ^ 32 - 1) :
    ∃ u', (system n).Steps TSys.Always u u' ∧ u'.Rested (h + k) next threads ∧ u'.First := by
  induction k with
  | zero => exact ⟨u, .refl, hu, hfirst⟩
  | succ k ih =>
      obtain ⟨v, hsteps, hv, hvfirst⟩ := ih (fun i hi => hn i (by omega)) (by omega)
      obtain ⟨w, id, hround, hw, hid, hframes, hmap⟩ := hv.round (n := n) hidle (by omega)
      have hother : 0 ≠ (h + k) % n := (hn k (by omega)).symm
      refine ⟨w, hsteps.trans hround, hw, ⟨?_, ?_⟩⟩
      · rw [hframes, update_of_ne hother]
        exact hvfirst.frame
      · rw [hmap]
        have hne : (⟨1, 1⟩ : PageIdentifier) ≠ ⟨1, h + k + 1⟩ := by
          intro heq
          have hpid : 1 = h + k + 1 := congrArg PageIdentifier.pid heq
          exact hother (by rw [show h + k = 0 by omega, Nat.zero_mod])
        split
        · rename_i hentry
          have hne' : (⟨1, 1⟩ : PageIdentifier) ≠ id := by
            rintro rfl
            rw [hvfirst.map] at hentry
            exact hother (Option.some.inj hentry)
          rw [update_of_ne hne', update_of_ne hne]
          exact hvfirst.map
        · rw [update_of_ne hne]
          exact hvfirst.map

theorem init : init.Rested 0 (fun _ => 1) fun _ => ⟨.idle, []⟩ where
  frames _ := ⟨⟨0, 0⟩, rfl, Nat.le_refl _⟩
  map _ _ := rfl
  sweepHead := rfl
  nextPid := rfl
  reads := rfl
  threads := rfl
  unwaited := rfl

end Rested

/-- One thread has frame 0 pinned 2^32 times, two calls of `Reserve` claim it one after the
other, and the page of the first stays in the map. -/
theorem pins_overflow :
    ¬∀ u, (system bufferPoolPageNum).Reachable u → u.Quiet → u.Consistent := by
  intro hall
  obtain ⟨n, hn⟩ : ∃ n, n = bufferPoolPageNum := ⟨_, rfl⟩
  have hone : 1 < n := by rw [hn]; decide
  have hlt : n + n + 2 < 2 ^ 32 - 1 := by rw [hn]; decide
  rw [← hn] at hall
  -- the first page goes into frame 0, and the sweep comes around to it
  obtain ⟨u₁, id, hsteps₁, hu₁, -, hframes₁, hmap₁⟩ := Rested.init.round (n := n) rfl (by omega)
  have hfirst₁ : u₁.First := by
    rw [Nat.zero_mod] at hframes₁ hmap₁
    refine ⟨by rw [hframes₁, update_self], ?_⟩
    rw [hmap₁, if_neg (by intro hc; cases hc)]
    exact update_self ..
  obtain ⟨u₂, hsteps₂, hu₂, hfirst₂⟩ := hu₁.rounds (n := n) hfirst₁ rfl (n - 1)
    (fun i hi => by rw [Nat.mod_eq_of_lt (by omega)]; omega) (by omega)
  rw [show 0 + 1 + (n - 1) = n by omega] at hu₂
  -- there a call of `Reserve` stops, and another one after the next way around
  obtain ⟨u₃, hsteps₃, hu₃, hframes₃, hmap₃⟩ := hu₂.enter (n := n) (t := 1) rfl 2 rfl (by omega)
  obtain ⟨u₄, hsteps₄, hu₄, hfirst₄⟩ := hu₃.rounds (n := n)
    ⟨by rw [hframes₃]; exact hfirst₂.frame, by rw [hmap₃]; exact hfirst₂.map⟩ rfl (n - 1)
    (fun i hi => by
      rw [show n + 1 + i = n + (i + 1) by omega, Nat.add_mod_left, Nat.mod_eq_of_lt (by omega)]
      omega)
    (by omega)
  rw [show n + 1 + (n - 1) = n + n by omega] at hu₄
  obtain ⟨u₅, hsteps₅, hu₅, hframes₅, hmap₅⟩ := hu₄.enter (n := n) (t := 2) rfl 3 rfl (by omega)
  rw [Nat.mod_self, Nat.add_mod_left, Nat.mod_self] at hu₅
  have hinit : (system n).Steps TSys.Always init
      (scene u₅ 0 ⟨⟨1, 1⟩, 0, false, false, none⟩ u₅.pool.map u₅.pool.threads) := by
    have hsame : update u₅.pool.frames 0 ⟨⟨1, 1⟩, 0, false, false, none⟩ = u₅.pool.frames := by
      rw [hframes₅, ← hfirst₄.frame, update_eq_self]
    rw [scene, hsame, ← hu₅.unwaited]
    exact (((hsteps₁.trans hsteps₂).trans hsteps₃).trans hsteps₄).trans hsteps₅
  have hmap : u₅.pool.map ⟨1, 1⟩ = some 0 := by rw [hmap₅, hfirst₄.map]
  have hnone₂ : u₅.pool.map ⟨2, 1⟩ = none := hu₅.map _ (.inl (by simp))
  have hnone₃ : u₅.pool.map ⟨3, 1⟩ = none := hu₅.map _ (.inl (by simp))
  rw [hu₅.threads] at hinit
  obtain ⟨k, hk⟩ : ∃ k, k + 1 = 2 ^ 32 := ⟨2 ^ 32 - 1, rfl⟩
  -- 2^32 pins look like none
  have hpins := hinit.trans (scene_pins (t := 0) rfl hmap ⟨by simp, by simp⟩ (k + 1))
  rw [show u32 (k + 1) = 0 by rw [u32, hk, Nat.mod_self]] at hpins
  -- the second `Reserve` claims the frame, and one pin less makes it look free again
  have hsecond := (hpins.trans (scene_reserve (t := 2) rfl)).trans (scene_unpin (t := 0) rfl rfl)
  rw [show (⟨⟨3, 1⟩, 1, false, false, none⟩ : Frame).unpin =
    ⟨⟨3, 1⟩, 0, false, false, none⟩ from rfl] at hsecond
  -- the first `Reserve` claims it too, and takes the id of the second for the old page
  have hfirst := (hsecond.trans (scene_reserve (t := 1) rfl)).trans
    (scene_give (t := 1) rfl hnone₂ (by simp))
  rw [if_neg (by rw [hnone₃]; simp),
    show (⟨⟨2, 1⟩, 1, false, false, none⟩ : Frame).unpin =
      ⟨⟨2, 1⟩, 0, false, false, none⟩ from rfl] at hfirst
  have hgiven :=
    hfirst.trans (scene_give (t := 2) rfl (by rw [update_of_ne (by simp), hnone₃]) (by simp))
  rw [if_pos (by rw [update_of_ne (by simp), hmap]),
    show (⟨⟨2, 1⟩, 0, false, false, none⟩ : Frame).unpin =
    ⟨⟨2, 1⟩, k, false, false, none⟩ by
      rw [Frame.unpin, u32Pred, if_pos rfl]; congr 1; omega] at hgiven
  have hend := hgiven.trans (scene_unpins (t := 0) (k := k) (Nat.le_refl k) (by omega) rfl)
  rw [Nat.sub_self] at hend
  have hconsistent := hall _ ⟨init, rfl, hend⟩ fun t => ?_
  · have hleft : update (update (update u₅.pool.map ⟨2, 1⟩ (some 0)) ⟨3, 1⟩ (some 0)) ⟨1, 1⟩ none
        ⟨3, 1⟩ = some 0 := by
      rw [update_of_ne (by simp), update_self]
    have hid : (⟨2, 1⟩ : PageIdentifier) = ⟨3, 1⟩ := (hconsistent.map ⟨3, 1⟩ 0 (by simp)).mp hleft
    cases hid
  · rcases t with _ | _ | _ | t <;> rfl

end Overflow

end PoolUse

end Db7
