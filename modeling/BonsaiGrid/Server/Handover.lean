import BonsaiGrid.Store.Slots

/-!
# A partition is handed over

A member that becomes a holder of a partition serves it at once, and is sent a copy of it: the
entries of its maps, its structures and the entries of its multimaps.
-/

namespace BonsaiGrid.Server

open Store Function Structures

/-- An entry of a map that a shard can hold, as all that come from a client do. -/
structure Entry where
  map : Str
  key : Bytes
  val : Bytes
  fits : key.length + val.length < 2 ^ 32

/-- The member, with what it did itself since it became a holder: the value and the deadline that
its last mutation left of an entry, and the calls that changed a structure. -/
structure Holder where
  store : Store
  own : Str × Bytes → Option (Option (Bytes × ℕ))
  calls : Slot → List StructureCall
  base : Slot → View

/-- What happens: a mutation by a client of the member, or the member thread handles one entry of a
`MigrateChunk`, one section of a `MigrateAux` or one key of a `MigrateMm`, each entry at the clock
at which it is merged. -/
inductive HolderEvent
  | put (env : StoreEnv) (entry : Entry) (ttlMs : ℕ)
  | remove (env : StoreEnv) (map : Str) (key : Bytes)
  | call (c : StructureCall)
  | migrateEntry (env : StoreEnv) (entry : Entry) (stamp : ℕ)
  | migrateSection (part : AuxSection)
  | migrateValues (name : Str) (key : Bytes) (values : List Bytes)

namespace Holder

def noted (h : Holder) (c : StructureCall) : Slot → List StructureCall :=
  match c.slot with
  | some σ => if c.mutates h.store.aux then update h.calls σ (h.calls σ ++ [c]) else h.calls
  | none => h.calls

def exec (mergeLatest : Bool) (h : Holder) : HolderEvent → Holder
  | .put env entry ttlMs =>
    { h with
      store := (h.store.putTtl env entry.map entry.key entry.val ttlMs).1
      own := update h.own (entry.map, entry.key)
        (some (some (entry.val, Inner.deadline env.now ttlMs))) }
  | .remove env map key =>
    { h with
      store := (h.store.remove env map key).1
      own := update h.own (map, key) (some none) }
  | .call c => { h with store := h.store.callStructure c, calls := h.noted c }
  | .migrateEntry env entry stamp =>
    { h with store := h.store.putMerge env entry.map entry.key entry.val 0 stamp mergeLatest }
  | .migrateSection part =>
    { h with
      store := { h.store with aux := h.store.aux.installSection part }
      base := Overlay.install part.cells h.base }
  | .migrateValues name key values =>
    { h with
      store := { h.store with aux := h.store.aux.mmInstall name key values }
      base := update h.base (.multimap name key) (.items values) }

def init (store : Store) : Holder where
  store
  own _ := none
  calls _ := []
  base := store.aux.cell

/-- What is migrated is about nothing that the member has changed itself. -/
def Respects (mergeLatest : Bool) (h : Holder) : HolderEvent → Prop
  | .migrateEntry env entry stamp => (h.own (entry.map, entry.key)).isSome →
      ∃ c, Inner.seen env.now (h.store.contents (entry.map, entry.key)) = some c ∧
        ¬ (mergeLatest ∧ c.stamp < stamp)
  | .migrateSection part => ∀ σ, (part.cells σ).isSome → h.calls σ = []
  | .migrateValues name key _ => h.calls (.multimap name key) = []
  | _ => True

structure Reflects (h : Holder) : Prop where
  inv : h.store.Inv
  entries : ∀ mk x, h.own mk = some x → (h.store.contents mk).map (fun c => (c.val, c.expireAt)) = x
  structures : h.store.aux.cell = Overlay.laid StructureCall.act h.base h.calls

namespace Reflects

variable {h : Holder} {mergeLatest : Bool}

theorem init {store : Store} (hs : store.Inv) : Reflects (init store) where
  inv := hs
  entries mk x hx := by cases hx
  structures := rfl

theorem setCell (hr : h.Reflects) {store : Store} (hinv : store.Inv) {mk : Str × Bytes}
    {c : Option Cell} (hcontents : store.contents = update h.store.contents mk c)
    (haux : store.aux = h.store.aux) :
    Reflects { h with
      store
      own := update h.own mk (some (c.map fun c => (c.val, c.expireAt))) } where
  inv := hinv
  entries mk' x hx := by
    by_cases hmk : mk' = mk
    · subst hmk
      simp only [update_self, Option.some.injEq] at hx
      simp [hcontents, hx]
    · simp only [update_of_ne hmk] at hx
      simp [hcontents, hmk, hr.entries mk' x hx]
  structures := by
    rw [haux]
    exact hr.structures

theorem call (hr : h.Reflects) (c : StructureCall) : Reflects (h.exec mergeLatest (.call c)) := by
  obtain ⟨hshards, haux⟩ := callStructure_eq h.store c
  refine ⟨hr.inv.congr hshards, fun mk x hx => ?_, ?_⟩
  · rw [exec, contents_congr hshards]
    exact hr.entries mk x hx
  · rw [exec]
    rw [haux, noted]
    cases hslot : c.slot with
    | none => rw [cell_call_of_slot_eq_none _ hslot, hr.structures]
    | some σ =>
      rw [cell_call _ hslot]
      dsimp only
      split
      · exact Overlay.laid_act hr.structures σ c
      next hm =>
        rw [act_of_not_mutates _ hslot (Bool.eq_false_iff.mpr hm),
          update_eq_self, hr.structures]

theorem migrateEntry (hr : h.Reflects) {env : StoreEnv} {entry : Entry} {stamp : ℕ}
    (hok : h.Respects mergeLatest (.migrateEntry env entry stamp)) :
    Reflects (h.exec mergeLatest (.migrateEntry env entry stamp)) := by
  obtain ⟨hinv, hcontents⟩ := hr.inv.putMerge env entry.map entry.key entry.val 0 stamp mergeLatest
    entry.fits
  refine ⟨hinv, fun mk x hx => ?_, hr.structures⟩
  rw [exec, hcontents]
  by_cases hmk : mk = (entry.map, entry.key)
  · subst hmk
    obtain ⟨c, hseen, hkept⟩ := hok (by
      rw [Option.isSome_iff_exists]
      exact ⟨x, hx⟩)
    have hcell : h.store.contents (entry.map, entry.key) = some c := Inner.contents_of_seen hseen
    have hmerge : Inner.mergeCell (some c) ⟨entry.val, Inner.deadline env.now 0, stamp⟩
        mergeLatest = c := if_neg hkept
    rw [update_self, hseen, hmerge, ← hcell]
    exact hr.entries _ x hx
  · rw [update_of_ne hmk]
    exact hr.entries mk x hx

theorem exec (hr : h.Reflects) {event : HolderEvent} (hok : h.Respects mergeLatest event) :
    Reflects (h.exec mergeLatest event) := by
  cases event with
  | put env entry ttlMs =>
    obtain ⟨hinv, hcontents⟩ := hr.inv.putTtl env entry.map entry.key entry.val ttlMs entry.fits
    exact hr.setCell hinv hcontents rfl
  | remove env map key =>
    obtain ⟨hinv, hcontents⟩ := hr.inv.remove env map key
    exact hr.setCell hinv hcontents rfl
  | call c => exact hr.call c
  | migrateEntry env entry stamp => exact hr.migrateEntry hok
  | migrateSection part =>
    refine ⟨hr.inv.congr rfl, hr.entries, ?_⟩
    exact (cell_installSection _ part).trans (Overlay.laid_install hr.structures hok)
  | migrateValues name key values =>
    refine ⟨hr.inv.congr rfl, hr.entries, ?_⟩
    refine (cell_mmInstall _ name key values).trans ?_
    rw [← Overlay.install_single, Overlay.laid_install hr.structures fun σ hσ => ?_]
    · rw [Holder.exec, Overlay.install_single]
    · rw [Overlay.eq_of_isSome_single hσ]
      exact hok

end Reflects

end Holder

/-- In every run in which what is migrated is about nothing that the member has changed itself, each
entry is as the last mutation of the member left it, and each structure is the copy with all
calls of the member carried out on it. -/
theorem migration_keeps_mutations {store : Store} (hs : store.Inv) (mergeLatest : Bool)
    {h : Holder} (hrun : Trace.Reaches (Holder.exec mergeLatest) (Holder.Respects mergeLatest)
      (Holder.init store) h) :
    (∀ mk x, h.own mk = some x →
      (h.store.contents mk).map (fun c => (c.val, c.expireAt)) = x) ∧
    h.store.aux.cell = Overlay.laid StructureCall.act h.base h.calls := by
  have hr : h.Reflects :=
    hrun.invariant (fun _ _ hr hok => hr.exec hok) (Holder.Reflects.init hs)
  exact ⟨hr.entries, hr.structures⟩

/-! ### Late copies -/

theorem valid_objectName : Utf8.valid [111] = true := by decide

def objectName : Str := ⟨[111], valid_objectName⟩

theorem fits_oldEntry : ([1] : Bytes).length + ([10] : Bytes).length < 2 ^ 32 := by decide

def oldEntry : Entry := ⟨objectName, [1], [10], fits_oldEntry⟩

def handover (events : List HolderEvent) : Holder :=
  events.foldl (Holder.exec true) (Holder.init (Store.withShardsSeed 1 2))

def copyFirst : List HolderEvent :=
  [.migrateSection (.queue objectName [[9]]), .migrateEntry ⟨⟨5, 0⟩, 5⟩ oldEntry 7,
    .call (.queueOffer objectName [1]), .remove ⟨⟨6, 0⟩, 6⟩ objectName [1]]

theorem allowed_copyFirst : Trace.Allowed (Holder.exec true) (Holder.Respects true)
    (Holder.init (Store.withShardsSeed 1 2)) copyFirst :=
  ⟨fun _ _ => rfl, fun hown => (by cases hown), trivial, trivial, trivial⟩

theorem migration_keeps_mutations_copyFirst :
    ((handover copyFirst).store.contents (objectName, [1])).map
      (fun c => (c.val, c.expireAt)) = none ∧
    (handover copyFirst).store.aux.cell (.queue objectName) = .items [[9], [1]] := by
  obtain ⟨hentries, hstructures⟩ := migration_keeps_mutations
    (Store.inv_withShardsSeed (by decide) 2).1 true (.of_allowed copyFirst allowed_copyFirst)
  exact ⟨hentries (objectName, [1]) none rfl, congrFun hstructures (.queue objectName)⟩

/-- A key is removed and then comes with the copy; a queue and a key of a multimap get a value and
are then replaced by the copy. -/
theorem migration_undoes_mutations :
    ((handover [.remove ⟨⟨5, 0⟩, 5⟩ objectName [1],
        .migrateEntry ⟨⟨6, 0⟩, 6⟩ oldEntry 7]).own (objectName, [1]) = some none ∧
      ((handover [.remove ⟨⟨5, 0⟩, 5⟩ objectName [1],
        .migrateEntry ⟨⟨6, 0⟩, 6⟩ oldEntry 7]).store.contents (objectName, [1])).map Cell.val =
          some [10]) ∧
    (handover [.call (.queueOffer objectName [1]),
      .migrateSection (.queue objectName [[9]])]).store.aux.queueItems objectName = [[9]] ∧
    (handover [.call (.mmPut objectName [1] [8]),
      .migrateValues objectName [1] [[9]]]).store.aux.mmGet objectName [1] = [[9]] := by
  decide +kernel

end BonsaiGrid.Server
