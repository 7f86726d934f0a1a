import BonsaiGrid.Lib.Overlay
import BonsaiGrid.Store.Interface

/-!
# The structures as cells

What the queries show of a structure is the cell of a slot: a queue, a list, a set, a ringbuffer,
a counter or an estimator by its name, and the values of one key of a multimap.
-/

namespace BonsaiGrid.Store

open StructureCall Overlay Function AList

inductive Slot
  | queue (name : Str)
  | list (name : Str)
  | set (name : Str)
  | multimap (name : Str) (key : Bytes)
  | ringbuffer (name : Str)
  | pncounter (name : Str)
  | hll (name : Str)
deriving DecidableEq

namespace Structures

def cell (s : Structures) : Slot → View
  | .queue name => .items (s.queueItems name)
  | .list name => .items (s.listGetAll name)
  | .set name => .members fun v => ((s.setDict name).lookup v).isSome
  | .multimap name key => .items (((s.multimapDict name).lookup key).getD [])
  | .ringbuffer name => .ring (s.ringbuffers.lookup name)
  | .pncounter name => .count (s.pnGet name)
  | .hll name => .sketch (s.hlls.lookup name)

section Insert

variable (s : Structures) (name : Str)

attribute [local simp] cell queueItems listGetAll setDict multimapDict pnGet

theorem cell_insert :
    (∀ l, cell { s with queues := s.queues.insert name l } =
      update s.cell (.queue name) (.items l)) ∧
    (∀ l, cell { s with lists := s.lists.insert name l } =
      update s.cell (.list name) (.items l)) ∧
    (∀ d, cell { s with sets := s.sets.insert name d } =
      update s.cell (.set name) (.members fun v => (d.lookup v).isSome)) ∧
    (∀ r, cell { s with ringbuffers := s.ringbuffers.insert name r } =
      update s.cell (.ringbuffer name) (.ring (some r))) ∧
    (∀ v, cell { s with pncounters := s.pncounters.insert name v } =
      update s.cell (.pncounter name) (.count v)) ∧
    ∀ h, cell { s with hlls := s.hlls.insert name h } =
      update s.cell (.hll name) (.sketch (some h)) := by
  refine ⟨fun l => ?_, fun l => ?_, fun d => ?_, fun r => ?_, fun v => ?_, fun h => ?_⟩
  all_goals
    funext σ
    cases σ <;> try rfl
    rename_i name'
    rcases eq_or_ne name' name with rfl | hname <;> simp_all [lookup_insert_ne]

def mmCells (mm : Dict Bytes (List Bytes)) : Slot → Option View
  | .multimap name' key => if name' = name then some (.items ((mm.lookup key).getD [])) else none
  | _ => none

theorem cell_insert_multimap (mm : Dict Bytes (List Bytes)) :
    cell { s with multimaps := s.multimaps.insert name mm } =
      install (mmCells name mm) s.cell := by
  funext σ
  cases σ with
  | multimap name' key =>
    rcases eq_or_ne name' name with rfl | hname <;>
      simp_all [install, mmCells, lookup_insert_ne]
  | _ => simp [install, mmCells]

theorem cell_erase_multimap :
    cell { s with multimaps := s.multimaps.erase name } =
      install (mmCells name ∅) s.cell := by
  funext σ
  cases σ with
  | multimap name' key =>
    rcases eq_or_ne name' name with rfl | hname <;>
      simp_all [install, mmCells, lookup_erase_ne]
  | _ => simp [install, mmCells]

theorem install_mmCells {mm : Dict Bytes (List Bytes)} {key : Bytes} {l : List Bytes}
    (hkey : (mm.lookup key).getD [] = l)
    (hother : ∀ k, k ≠ key → (mm.lookup k).getD [] = ((s.multimapDict name).lookup k).getD []) :
    install (mmCells name mm) s.cell =
      update s.cell (.multimap name key) (.items l) := by
  funext σ
  cases σ with
  | multimap name' k =>
    by_cases hname : name' = name
    · subst hname
      by_cases hk : k = key
      · subst hk
        simp [install, mmCells, hkey]
      · simp [install, mmCells, hk, hother k hk, cell]
    · simp [install, mmCells, hname]
  | _ => simp [install, mmCells]

end Insert

end Structures

/-! ## Calls -/

namespace StructureCall

def slot : StructureCall → Option Slot
  | .queueOffer q _ | .queuePoll q | .queueRemove q _ | .queueClear q => some (.queue q)
  | .listAdd name _ | .listRemove name _ | .listClear name => some (.list name)
  | .setAdd name _ | .setRemove name _ | .setClear name => some (.set name)
  | .mmPut name key _ | .mmRemove name key => some (.multimap name key)
  | .rbAdd name _ => some (.ringbuffer name)
  | .pnAdd name _ _ => some (.pncounter name)
  | .hllAdd name _ => some (.hll name)
  | .flakeBatch _ _ => none

end StructureCall

def Ring.add (r : Ring) (v : Bytes) : Ring :=
  let r := { r with tail := r.tail + 1, items := r.items ++ [v] }
  if r.cap < Int64.ofNat r.items.length then { r with items := r.items.tail, head := r.head + 1 }
  else r

namespace StructureCall

def act : StructureCall → View → View
  | .queueOffer _ v, .items l => .items (l ++ [v])
  | .queuePoll _, .items l => .items l.tail
  | .queueRemove _ v, .items l => .items (l.erase v)
  | .queueClear _, .items _ => .items []
  | .listAdd _ v, .items l => .items (l ++ [v])
  | .listRemove _ v, .items l => .items (l.erase v)
  | .listClear _, .items _ => .items []
  | .setAdd _ v, .members f => .members (update f v true)
  | .setRemove _ v, .members f => .members (update f v false)
  | .setClear _, .members _ => .members fun _ => false
  | .mmPut _ _ value, .items l => .items (if value ∈ l then l else l ++ [value])
  | .mmRemove _ _, .items _ => .items []
  | .rbAdd _ v, .ring r => .ring (some ((r.getD {}).add v))
  | .pnAdd _ delta _, .count n => .count (n + delta)
  | .hllAdd _ hash, .sketch h => .sketch (some ((h.getD .new).add hash))
  | _, x => x

def mutates (s : Structures) : StructureCall → Bool
  | .queuePoll q => (s.queuePoll q).2.isSome
  | .queueRemove q v => (s.queueRemove q v).2
  | .queueClear q => s.queueSize q ≠ 0
  | .listRemove name v => (s.listRemove name v).2
  | .listClear name => s.listSize name ≠ 0
  | .setAdd name v => (s.setAdd name v).2
  | .setRemove name v => (s.setRemove name v).2
  | .setClear name => s.setSize name ≠ 0
  | .mmPut name key value => (s.mmPut name key value).2
  | .mmRemove name key => (s.mmRemove name key).2 ≠ []
  | .pnAdd _ delta _ => delta ≠ 0
  | .flakeBatch _ _ => false
  | _ => true

end StructureCall

section Members

variable (d : Dict Bytes Unit) (v : Bytes)

theorem isSome_lookup_insert : (fun x => ((d.insert v ()).lookup x).isSome) =
    update (fun x => (d.lookup x).isSome) v true := by
  funext x
  by_cases hx : x = v
  · subst hx
    simp
  · simp [hx, lookup_insert_ne hx]

theorem isSome_lookup_erase : (fun x => ((d.erase v).lookup x).isSome) =
    update (fun x => (d.lookup x).isSome) v false := by
  funext x
  by_cases hx : x = v
  · subst hx
    simp
  · simp [hx, lookup_erase_ne hx]

end Members

namespace Structures

variable (s : Structures)

attribute [local simp] call act mutates cell queueItems listGetAll setDict multimapDict

variable {c : StructureCall}

theorem cell_call {σ : Slot} (h : c.slot = some σ) :
    cell (s.call c).1 = update s.cell σ (c.act (s.cell σ)) := by
  cases c with
  | queueOffer q v =>
    cases h
    exact (s.cell_insert q).1 _
  | queuePoll q =>
    cases h
    cases hq : s.queues.lookup q with
    | none => simp [queuePoll, hq]
    | some items =>
      cases items with
      | nil => simp [queuePoll, hq]
      | cons v rest =>
        simp [queuePoll, hq, cell_insert]
  | queueRemove name v | listRemove name v =>
    cases h
    simp only [call, queueRemove, listRemove]
    split
    next items hl =>
      by_cases hv : v ∈ items
      · simp [hl, hv, cell_insert]
      · simp [hl, hv, List.erase_of_not_mem hv]
    next hl => simp [hl]
  | queueClear name | listClear name | setClear name =>
    cases h
    simp only [call, queueClear, listClear, setClear]
    split
    next hl => simp [hl, cell_insert]
    next hl => simp [hl]
  | listAdd name v =>
    cases h
    exact (s.cell_insert name).2.1 _
  | setAdd name v =>
    cases h
    refine ((s.cell_insert name).2.2.1 _).trans ?_
    rw [cell, isSome_lookup_insert]
    rfl
  | setRemove name v =>
    cases h
    cases hd : s.sets.lookup name with
    | none => simp [setRemove, hd]
    | some d =>
      by_cases hv : (d.lookup v).isSome
      · simp [setRemove, hd, hv, cell_insert, isSome_lookup_erase]
      · simp [setRemove, hd, hv]
  | mmPut name key value =>
    cases h
    have hcall : (s.call (.mmPut name key value)).1 = { s with
        multimaps := s.multimaps.insert name ((s.multimapDict name).insert key
          (if value ∈ ((s.multimapDict name).lookup key).getD []
            then ((s.multimapDict name).lookup key).getD []
            else ((s.multimapDict name).lookup key).getD [] ++ [value])) } := by
      simp only [call, mmPut, multimapDict]
      split <;> simp_all
    rw [hcall, cell_insert_multimap, s.install_mmCells name (by rw [lookup_insert])
      fun k hk => by rw [lookup_insert_ne hk]]
    rfl
  | mmRemove name key =>
    cases h
    cases hmm : s.multimaps.lookup name with
    | none => simp [mmRemove, hmm]
    | some mm =>
      have hcall : (s.call (.mmRemove name key)).1 =
          { s with multimaps := s.multimaps.insert name (mm.erase key) } := by
        simp only [call, mmRemove, hmm]
      rw [hcall, cell_insert_multimap, s.install_mmCells name (by rw [lookup_erase])
        fun k hk => by rw [lookup_erase_ne hk, multimapDict, hmm]; rfl]
      rfl
  | rbAdd name v =>
    cases h
    exact (s.cell_insert name).2.2.2.1 _
  | pnAdd name delta getBefore =>
    cases h
    exact (s.cell_insert name).2.2.2.2.1 _
  | hllAdd name hash =>
    cases h
    exact (s.cell_insert name).2.2.2.2.2 _
  | flakeBatch name batch => cases h

theorem cell_call_of_slot_eq_none (h : c.slot = none) :
    cell (s.call c).1 = s.cell := by
  cases c with
  | flakeBatch name batch =>
    funext σ
    cases σ with
    | _ => rfl
  | _ => cases h

theorem act_of_not_mutates {σ : Slot} (h : c.slot = some σ)
    (hm : c.mutates s = false) : c.act (s.cell σ) = s.cell σ := by
  have hcall := congrFun (s.cell_call h) σ
  rw [update_self] at hcall
  cases c with
  | queuePoll q => rw [← hcall, call, (tried_queuePoll s q).eq_of_false hm]
  | queueRemove q v => rw [← hcall, call, (tried_remove s q v).1.eq_of_false hm]
  | listRemove name v => rw [← hcall, call, (tried_remove s name v).2.1.eq_of_false hm]
  | setRemove name v => rw [← hcall, call, (tried_remove s name v).2.2.eq_of_false hm]
  | queueClear q =>
    cases h
    cases hq : s.queues.lookup q with
    | none => simp [hq]
    | some items => simp_all [queueSize]
  | listClear name =>
    cases h
    cases hl : s.lists.lookup name with
    | none => simp [hl]
    | some items => simp_all [listSize]
  | setAdd name v =>
    cases h
    have hv : ((s.setDict name).lookup v).isSome = true := by
      simp only [mutates, setAdd, Option.isNone_eq_false_iff] at hm
      exact hm
    simp [← hv]
  | setClear name =>
    cases h
    cases hd : s.sets.lookup name with
    | none => simp [hd]
    | some d =>
      have hlen : d.len = 0 := by simpa [mutates, setSize, hd] using hm
      have hnone : ∀ v, d.lookup v = none := fun v => by
        rw [Dict.lookup_eq_none_iff, keys, List.length_eq_zero_iff.mp hlen]
        simp
      simp [hd, hnone]
  | mmPut name key value =>
    cases h
    have hv : value ∈ ((s.multimapDict name).lookup key).getD [] := by
      by_contra hv
      rw [mutates, mmPut, ← multimapDict, if_neg hv] at hm
      cases hm
    simp [hv, -multimapDict]
  | mmRemove name key =>
    cases h
    cases hmm : s.multimaps.lookup name with
    | none => simp [hmm]
    | some mm =>
      have hnil : (mm.lookup key).getD [] = [] := by
        simpa [mutates, mmRemove, hmm] using hm
      simp only [act, cell, multimapDict, hmm, Option.getD_some, hnil]
  | pnAdd name delta getBefore =>
    cases h
    have hdelta : delta = 0 := by simpa [mutates] using hm
    simp [hdelta]
  | flakeBatch name batch => cases h
  | _ => cases hm

/-! ## Installations -/

def mmInstall (name : Str) (key : Bytes) (values : List Bytes) : Structures :=
  if values = [] then
    match s.multimaps.lookup name with
    | some mm =>
      if Dict.len (mm.erase key) = 0 then { s with multimaps := s.multimaps.erase name }
      else { s with multimaps := s.multimaps.insert name (mm.erase key) }
    | none => s
  else
    { s with multimaps := s.multimaps.insert name ((s.multimapDict name).insert key values) }

theorem cell_mmInstall (name : Str) (key : Bytes) (values : List Bytes) :
    cell (s.mmInstall name key values) =
      update s.cell (.multimap name key) (.items values) := by
  rw [mmInstall]
  split
  next hnil =>
    subst hnil
    split
    next mm hmm =>
      have hother : ∀ k, k ≠ key → ((mm.erase key).lookup k).getD [] =
          ((s.multimapDict name).lookup k).getD [] := fun k hk => by
        rw [lookup_erase_ne hk, multimapDict, hmm]
        rfl
      split
      next hlen =>
        have hempty : mm.erase key = ∅ := ext (List.length_eq_zero_iff.mp hlen)
        rw [cell_erase_multimap, ← hempty]
        exact s.install_mmCells name (by rw [lookup_erase]; rfl) hother
      next =>
        rw [cell_insert_multimap]
        exact s.install_mmCells name (by rw [lookup_erase]; rfl) hother
    next hmm => simp [cell, multimapDict, hmm]
  next =>
    rw [cell_insert_multimap]
    exact s.install_mmCells name (by rw [lookup_insert]; rfl)
      fun k hk => by rw [lookup_insert_ne hk]

end Structures

inductive AuxSection
  | list (name : Str) (items : List Bytes)
  | set (name : Str) (items : List Bytes)
  | queue (name : Str) (items : List Bytes)
  | multimap (name : Str) (entries : List (Bytes × List Bytes))
  | ringbuffer (name : Str) (ring : Ring)
  | pncounter (name : Str) (v : Int64)
  | flake (name : Str) (v : Int64)
  | hll (name : Str) (regs : Bytes)

namespace AuxSection

def setOf (items : List Bytes) : Dict Bytes Unit := items.foldl (fun d v => d.insert v ()) ∅

def tableOf (entries : List (Bytes × List Bytes)) : Dict Bytes (List Bytes) :=
  entries.foldl (fun mm e => mm.insert e.1 e.2) ∅

def cells : AuxSection → Slot → Option View
  | .list name items => single (.list name) (.items items)
  | .set name items =>
    single (.set name) (.members fun v => ((setOf items).lookup v).isSome)
  | .queue name items => single (.queue name) (.items items)
  | .multimap name entries => Structures.mmCells name (tableOf entries)
  | .ringbuffer name ring => single (.ringbuffer name) (.ring (some ring))
  | .pncounter name v => single (.pncounter name) (.count v)
  | .flake _ _ => fun _ => none
  | .hll name regs => single (.hll name) (.sketch (some (Hll.fromBytes regs)))

end AuxSection

namespace Structures

variable (s : Structures)

def installSection : AuxSection → Structures
  | .list name items => { s with lists := s.lists.insert name items }
  | .set name items => { s with sets := s.sets.insert name (AuxSection.setOf items) }
  | .queue name items => { s with queues := s.queues.insert name items }
  | .multimap name entries =>
    { s with multimaps := s.multimaps.insert name (AuxSection.tableOf entries) }
  | .ringbuffer name ring => { s with ringbuffers := s.ringbuffers.insert name ring }
  | .pncounter name v => { s with pncounters := s.pncounters.insert name v }
  | .flake name v => { s with flake := s.flake.insert name v }
  | .hll name regs => { s with hlls := s.hlls.insert name (Hll.fromBytes regs) }

def installAuxState (sections : List AuxSection) : Structures :=
  sections.foldl installSection s

theorem cell_installSection (section' : AuxSection) :
    cell (s.installSection section') = install section'.cells s.cell := by
  cases section' with
  | multimap name entries => exact s.cell_insert_multimap name _
  | flake name v =>
    funext σ
    cases σ with
    | _ => rfl
  | _ => simp [installSection, AuxSection.cells, cell_insert]

end Structures

end BonsaiGrid.Store
