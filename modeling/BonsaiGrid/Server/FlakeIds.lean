import BonsaiGrid.Persistence.Directory
import BonsaiGrid.Serialization.Compact
import BonsaiGrid.Store.Slots

/-!
# Flake ids in a cluster

Every member hands out batches of ids from a counter of its own. A counter gets to other members
only with the structures of its partition, which are sent to backups and to a new owner.
-/

namespace BonsaiGrid

open Store Persistence Structures List Int

variable {name : Str} {batch : Int32}

namespace Store

def i32Be (v : Int32) : Bytes := (LittleEndian.encode 4 v.toUInt32.toNat).reverse

/-- The partition of a structure: the one of its name as a serialized text. -/
def partitionForName (name : Str) (count : Int32) : Int32 :=
  Serialization.partitionId (i32Be 0 ++ i32Be (-11) ++
    i32Be (Int32.ofNat name.bytes.length) ++ name.bytes) count

variable (s : Structures)

namespace Structures

def chosen {V : Type} (on : Str → Bool) (d : Dict Str V) : List (Str × V) :=
  (d.entries.filter fun e => on e.1).map fun e => (e.1, e.2)

def auxStateForPartition (partition count : Int32) : List AuxSection :=
  let on (name : Str) : Bool := partitionForName name count == partition
  (chosen on s.lists).map (fun e => .list e.1 e.2) ++
    (chosen on s.sets).map (fun e => .set e.1 (e.2.entries.map fun x => x.1)) ++
    (chosen on s.queues).map (fun e => .queue e.1 e.2) ++
    (chosen on s.ringbuffers).map (fun e => .ringbuffer e.1 e.2) ++
    (chosen on s.pncounters).map (fun e => .pncounter e.1 e.2) ++
    (chosen on s.flake).map (fun e => .flake e.1 e.2) ++
    (chosen on s.hlls).map (fun e => .hll e.1 e.2.toBytes)

end Structures

def AuxSection.isFlake (name : Str) : AuxSection → Bool
  | .flake n _ => n = name
  | _ => false

theorem AuxSection.any_isFlake {sections : List AuxSection} :
    (sections.any fun x => x.isFlake name) = true ↔ ∃ v, .flake name v ∈ sections := by
  rw [any_eq_true]
  constructor
  · rintro ⟨x, hx, hname⟩
    cases x with
    | flake n v => exact ⟨v, by rwa [← of_decide_eq_true hname]⟩
    | _ => cases hname
  · rintro ⟨v, hv⟩
    exact ⟨_, hv, decide_eq_true rfl⟩

namespace Structures

def nextId (name : Str) : Int64 := (s.flake.lookup name).getD 1

theorem one_le_size (batch : Int32) : 1 ≤ (max batch 1).toInt := by
  change 1 ≤ (if batch ≤ 1 then 1 else batch).toInt
  split
  · decide
  · rename_i h
    exact le_of_lt (Int32.lt_iff_toInt_lt.1 (Int32.not_le.1 h))

theorem nextId_flakeBatch {s : Structures}
    (hroom : (s.nextId name).toInt + (max batch 1).toInt < 2 ^ 63) :
    ((s.flakeBatch name batch).1.nextId name).toInt =
      (s.nextId name).toInt + (max batch 1).toInt := by
  have hpos := one_le_size batch
  have hlow := (s.nextId name).le_toInt
  have hnext : (s.flakeBatch name batch).1.nextId name =
      s.nextId name + (max batch 1).toInt64 := by
    simp [flakeBatch, nextId]
  rw [hnext, Int64.toInt_add, Int32.toInt_toInt64]
  exact bmod_eq_of_le (by omega) (by omega)

theorem nextId_flakeBatch_of_ne {s : Structures} {name other : Str}
    (h : other ≠ name) : (s.flakeBatch name batch).1.nextId other = s.nextId other := by
  simp [flakeBatch, nextId, h]

theorem flake_mem_auxStateForPartition {s : Structures} {partition count : Int32}
    {v : Int64} (h : .flake name v ∈ s.auxStateForPartition partition count) :
    s.nextId name = v := by
  simp only [auxStateForPartition, mem_append, mem_map, reduceCtorEq, and_false,
    exists_false, false_or, or_false, AuxSection.flake.injEq] at h
  obtain ⟨⟨n, x⟩, he, rfl, rfl⟩ := h
  obtain ⟨e, hmem, heq⟩ := mem_map.1 he
  cases heq
  rw [nextId, Dict.lookup_eq_some.2 (mem_filter.1 hmem).1]
  rfl

theorem nextId_installAuxState (sections : List AuxSection) (name : Str) :
    (.flake name ((s.installAuxState sections).nextId name) ∈ sections) ∨
      (∀ v, .flake name v ∉ sections) ∧
        (s.installAuxState sections).nextId name = s.nextId name := by
  induction sections generalizing s with
  | nil => exact .inr ⟨fun v => not_mem_nil, rfl⟩
  | cons part rest ih =>
    rcases ih (s.installSection part) with hmem | ⟨hnone, heq⟩
    · exact .inl (mem_cons_of_mem part hmem)
    · rw [installAuxState, foldl_cons, ← installAuxState, heq]
      cases part with
      | flake n v =>
        by_cases hn : name = n
        · subst hn
          simp [installSection, nextId]
        · simp [installSection, nextId, hn, hnone]
      | _ => exact .inr ⟨by simp [hnone], rfl⟩

theorem flake_installAux (kind : AuxKind) (name : Str) (data : Bytes) :
    (s.installAux kind name data).flake = s.flake := by
  cases kind with
  | multimap | ringbuffer | pncounter => dsimp only [installAux]; split <;> rfl
  | _ => rfl

end Structures

theorem flake_callStructure (s : Store) {c : StructureCall}
    (h : ∀ name batch, c ≠ .flakeBatch name batch) : (s.callStructure c).aux.flake = s.aux.flake := by
  rw [(callStructure_eq s c).2]
  cases c with
  | flakeBatch name batch => exact absurd rfl (h name batch)
  | queueRemove name v | listRemove name v | setRemove name v =>
    simp only [Structures.call, Structures.queueRemove, Structures.listRemove,
      Structures.setRemove]
    split
    · split <;> rfl
    · rfl
  | queuePoll name | queueClear name | listClear name | setClear name =>
    simp only [Structures.call, Structures.queuePoll, Structures.queueClear,
      Structures.listClear, Structures.setClear]
    split <;> rfl
  | mmPut name key value =>
    simp only [Structures.call, Structures.mmPut]
    split <;> rfl
  | mmRemove name key =>
    simp only [Structures.call, Structures.mmRemove]
    split <;> rfl
  | _ => rfl

end Store

namespace Persistence

theorem flake_recover [Crc32fast] {d : Directory} {s r : Store} {clock : ℕ → StoreEnv}
    (h : d.recover s clock = some r) : r.aux.flake = s.aux.flake := by
  obtain ⟨records, -, rfl⟩ := Option.map_eq_some_iff.1 h
  generalize records.zipIdx.map (fun r => (clock r.2, r.1)) = timed
  clear h
  induction timed generalizing s with
  | nil => rfl
  | cons record timed ih =>
    rw [replay, foldl_cons, ← replay, ih]
    obtain ⟨env, record⟩ := record
    cases record with
    | auxState kind name state => exact flake_installAux s.aux kind name state
    | _ => rfl

end Persistence

namespace Server

structure IdBatch where
  name : Str
  base : Int64
  increment : Int64
  size : Int32
deriving DecidableEq

def IdBatch.ids (b : IdBatch) : List Int64 :=
  (List.range b.size.toNatClampNeg).map fun k => b.base + Int64.ofNat k * b.increment

/-- A member: its store, and how many batches of each generator its counter has seen. -/
structure FlakeMember where
  store : Store
  alive : Bool
  seen : Str → ℕ

/-- The structures of a partition on their way, with what their counters had seen. -/
structure FlakePacket where
  sections : List AuxSection
  seen : Str → ℕ

structure FlakeCluster (ι : Type) where
  members : ι → FlakeMember
  network : List FlakePacket
  batches : List IdBatch

inductive FlakeEvent (ι : Type) where
  /-- a client calls a structure of a member -/
  | call (i : ι) (c : StructureCall)
  /-- a member sends the structures of a partition, to a backup or to a new owner -/
  | send (i : ι) (partition count : Int32)
  /-- a member installs the `n`-th packet -/
  | deliver (i : ι) (n : ℕ)
  | die (i : ι)
  /-- a member starts again from what is on its disk -/
  | recover (i : ι) (dir : Directory) (shards memberId : ℕ) (clock : ℕ → StoreEnv)

namespace FlakeCluster

section Batches

variable {ι : Type}

def start (shards memberId : ι → ℕ) : FlakeCluster ι where
  members i := ⟨withShardsSeed (shards i) (memberId i), true, fun _ => 0⟩
  network := []
  batches := []

variable (w : FlakeCluster ι) (name : Str)

def count : ℕ := w.batches.countP fun b => b.name = name

def top : ℤ :=
  1 + ((w.batches.filter fun b => b.name = name).map fun b => b.size.toInt).sum

def send (i : ι) (partition count : Int32) : FlakeCluster ι :=
  let m := w.members i
  { w with
    network := w.network ++ [⟨m.store.aux.auxStateForPartition partition count, m.seen⟩] }

/-- What is known of a counter that has seen some batches. -/
def Counts (seen : ℕ) (next : Int64) : Prop :=
  seen ≤ w.count name ∧ (seen = w.count name → next.toInt = w.top name)

/-- Counters that have seen all batches are at the top, and the batches of a generator
follow one another below it. -/
structure Inv (w : FlakeCluster ι) : Prop where
  member : ∀ i name, w.Counts name ((w.members i).seen name)
    ((w.members i).store.aux.nextId name)
  packet : ∀ p ∈ w.network, ∀ name v, .flake name v ∈ p.sections → w.Counts name (p.seen name) v
  bounded : ∀ name, w.top name < 2 ^ 63
  below : ∀ b ∈ w.batches, b.increment = 1 ∧ b.base.toInt + b.size.toInt ≤ w.top b.name
  ordered : w.batches.Pairwise fun b b' => b.name = b'.name →
    b.base.toInt + b.size.toInt ≤ b'.base.toInt

theorem inv_start (shards memberId : ι → ℕ) : Inv (start shards memberId) where
  member _ _ := ⟨Nat.le_refl _, fun _ => rfl⟩
  packet _ hp := absurd hp not_mem_nil
  bounded _ := (by decide : (1 : ℤ) < 2 ^ 63)
  below _ hb := absurd hb not_mem_nil
  ordered := .nil

theorem Inv.send {w : FlakeCluster ι} (h : w.Inv) (i : ι) (partition count : Int32) :
    (w.send i partition count).Inv := by
  refine { h with packet := forall_mem_concat h.packet fun name v hv => ?_ }
  rw [← flake_mem_auxStateForPartition hv]
  exact h.member i name

variable {b : IdBatch} {members : ι → FlakeMember}

theorem count_append (n : Str) :
    count { w with members, batches := w.batches ++ [b] } n =
      w.count n + if b.name = n then 1 else 0 := by
  simp [count, countP_append, countP_singleton]

theorem top_append (n : Str) :
    top { w with members, batches := w.batches ++ [b] } n =
      w.top n + if b.name = n then b.size.toInt else 0 := by
  by_cases h : b.name = n
  · simp [top, filter_append, h, add_assoc]
  · simp [top, filter_append, h]

theorem Counts.append {w : FlakeCluster ι} {n : Str} {seen : ℕ} {next : Int64}
    (h : w.Counts n seen next) :
    Counts { w with members, batches := w.batches ++ [b] } n seen next := by
  rw [Counts, count_append, top_append]
  by_cases hn : b.name = n
  · rw [if_pos hn]
    have hle := h.1
    exact ⟨Nat.le_succ_of_le hle, fun heq => absurd hle (by omega)⟩
  · rw [if_neg hn, if_neg hn, Int.add_zero]
    exact h

theorem Inv.append {w : FlakeCluster ι} (h : w.Inv) (hincrement : b.increment = 1)
    (hbase : b.base.toInt = w.top b.name) (hsize : 0 ≤ b.size.toInt)
    (hroom : w.top b.name + b.size.toInt < 2 ^ 63)
    (hmembers : ∀ i name, Counts { w with members, batches := w.batches ++ [b] } name
      ((members i).seen name) ((members i).store.aux.nextId name)) :
    Inv { w with members, batches := w.batches ++ [b] } := by
  refine ⟨hmembers, fun p hp name v hv => (h.packet p hp name v hv).append, fun n => ?_,
    forall_mem_concat (fun x hx => ?_) ?_, h.ordered.concat fun x hx hname => ?_⟩
  · rw [top_append]
    by_cases hn : b.name = n
    · rw [if_pos hn, ← hn]
      exact hroom
    · rw [if_neg hn, add_zero]
      exact h.bounded n
  · obtain ⟨hone, hle⟩ := h.below x hx
    rw [top_append]
    refine ⟨hone, le_trans hle ?_⟩
    split <;> omega
  · rw [top_append, if_pos rfl, hbase]
    exact ⟨hincrement, le_refl _⟩
  · rw [hbase]
    exact hname ▸ (h.below x hx).2

end Batches

section Members

variable {ι : Type} [DecidableEq ι]

def setMember (w : FlakeCluster ι) (i : ι) (m : FlakeMember) : FlakeCluster ι :=
  { w with members := fun j => if j = i then m else w.members j }

@[simp] theorem setMember_self (w : FlakeCluster ι) (i : ι) (m : FlakeMember) :
    (w.setMember i m).members i = m :=
  if_pos rfl

@[simp] theorem setMember_of_ne (w : FlakeCluster ι) {i j : ι} (m : FlakeMember) (h : j ≠ i) :
    (w.setMember i m).members j = w.members j :=
  if_neg h

def ask (w : FlakeCluster ι) (i : ι) (name : Str) (batch : Int32) : FlakeCluster ι :=
  let m := w.members i
  let r := m.store.flakeBatch name batch
  { w.setMember i
      { m with
        store := r.1
        seen := Function.update m.seen name (w.count name + 1) } with
    batches := w.batches ++ [⟨name, r.2.1, r.2.2.1, r.2.2.2⟩] }

def call (w : FlakeCluster ι) (i : ι) (c : StructureCall) : FlakeCluster ι :=
  match c with
  | .flakeBatch name batch => w.ask i name batch
  | c => w.setMember i { w.members i with store := (w.members i).store.callStructure c }

def install (w : FlakeCluster ι) (i : ι) (p : FlakePacket) : FlakeCluster ι :=
  let m := w.members i
  w.setMember i
    { m with
      store := { m.store with aux := m.store.aux.installAuxState p.sections }
      seen := fun name => if p.sections.any fun x => x.isFlake name then p.seen name
        else m.seen name }

variable {w : FlakeCluster ι} {i : ι}

theorem Inv.setMember (h : w.Inv) {m : FlakeMember}
    (hm : ∀ name, w.Counts name (m.seen name) (m.store.aux.nextId name)) :
    (w.setMember i m).Inv := by
  refine ⟨fun j name => ?_, h.packet, h.bounded, h.below, h.ordered⟩
  by_cases hj : j = i
  · rw [hj, setMember_self]
    exact hm name
  · rw [setMember_of_ne w m hj]
    exact h.member j name

theorem Inv.setStore (h : w.Inv) {m : FlakeMember} (hseen : m.seen = (w.members i).seen)
    (hflake : m.store.aux.flake = (w.members i).store.aux.flake) : (w.setMember i m).Inv := by
  refine h.setMember fun name => ?_
  rw [hseen, nextId, hflake]
  exact h.member i name

theorem Inv.ask (h : w.Inv) (hseen : (w.members i).seen name = w.count name)
    (hroom : w.top name + (max batch 1).toInt < 2 ^ 63) : (w.ask i name batch).Inv := by
  have hpos := one_le_size batch
  have hbase := (h.member i name).2 hseen
  refine h.append rfl hbase (le_trans (by decide) hpos) hroom fun j n => ?_
  by_cases hj : j = i
  · rw [hj, setMember_self]
    dsimp only
    by_cases hn : n = name
    · subst hn
      rw [Function.update_self, Counts, count_append, top_append, if_pos rfl, if_pos rfl, ← hbase]
      exact ⟨Nat.le_refl _, fun _ => nextId_flakeBatch (by rw [hbase]; exact hroom)⟩
    · have hother : ((w.members i).store.flakeBatch name batch).1.aux.nextId n =
          (w.members i).store.aux.nextId n := nextId_flakeBatch_of_ne hn
      rw [Function.update_of_ne hn, hother]
      exact (h.member i n).append
  · rw [setMember_of_ne w _ hj]
    exact (h.member j n).append

theorem Inv.call (h : w.Inv) {c : StructureCall}
    (hok : ∀ name batch, c = .flakeBatch name batch → (w.members i).seen name = w.count name ∧
      w.top name + (max batch 1).toInt < 2 ^ 63) : (w.call i c).Inv := by
  cases c with
  | flakeBatch name batch => exact h.ask (hok name batch rfl).1 (hok name batch rfl).2
  | _ => exact h.setStore rfl (flake_callStructure _ fun _ _ hc => by cases hc)

theorem Inv.install (h : w.Inv) {p : FlakePacket} (hp : p ∈ w.network) : (w.install i p).Inv := by
  refine h.setMember fun name => ?_
  dsimp only
  rcases (w.members i).store.aux.nextId_installAuxState p.sections name with hmem | ⟨hnone, heq⟩
  · rw [if_pos (AuxSection.any_isFlake.2 ⟨_, hmem⟩)]
    exact h.packet p hp name _ hmem
  · rw [if_neg fun hany => (AuxSection.any_isFlake.1 hany).elim hnone, heq]
    exact h.member i name

variable [Crc32fast]

def exec (w : FlakeCluster ι) : FlakeEvent ι → FlakeCluster ι
  | .call i c => if (w.members i).alive then w.call i c else w
  | .send i partition count => if (w.members i).alive then w.send i partition count else w
  | .deliver i n => if (w.members i).alive then w.network[n]?.elim w (w.install i) else w
  | .die i => w.setMember i { w.members i with alive := false }
  | .recover i dir shards memberId clock =>
    if (w.members i).alive then w
    else (dir.recover (withShardsSeed shards memberId) clock).elim w fun store =>
      w.setMember i ⟨store, true, fun _ => 0⟩

/-- A batch is asked of a member whose counter has seen all batches before it, and the
ids stay below `2 ^ 63`. -/
def Allows (w : FlakeCluster ι) (e : FlakeEvent ι) : Prop :=
  ∀ i name batch, e = .call i (.flakeBatch name batch) →
    (w.members i).seen name = w.count name ∧ w.top name + (max batch 1).toInt < 2 ^ 63

theorem Inv.exec (h : w.Inv) {e : FlakeEvent ι} (hok : w.Allows e) : (w.exec e).Inv := by
  cases e with
  | call i c =>
    rw [FlakeCluster.exec]
    split
    · exact h.call fun name batch hc => hok i name batch (by rw [hc])
    · exact h
  | send i partition count =>
    rw [FlakeCluster.exec]
    split
    · exact h.send i partition count
    · exact h
  | deliver i n =>
    rw [FlakeCluster.exec]
    split
    · cases hp : w.network[n]? with
      | none => exact h
      | some p => exact h.install (mem_of_getElem? hp)
    · exact h
  | die i => exact h.setStore rfl rfl
  | recover i dir shards memberId clock =>
    rw [FlakeCluster.exec]
    split
    · exact h
    · cases hstore : dir.recover (withShardsSeed shards memberId) clock with
      | none => exact h
      | some store =>
        refine h.setMember fun name => ⟨Nat.zero_le _, fun hnone => ?_⟩
        -- a counter that starts again has seen all batches only if there are none
        have hempty : w.batches.filter (fun b => b.name = name) = [] := by
          rw [← length_eq_zero_iff, ← countP_eq_length_filter]
          exact hnone.symm
        rw [nextId, flake_recover hstore, top, hempty]
        rfl

end Members

end FlakeCluster

theorem IdBatch.mem_ids {b : IdBatch} (hone : b.increment = 1)
    (hroom : b.base.toInt + b.size.toInt < 2 ^ 63) {id : Int64} (h : id ∈ b.ids) :
    b.base.toInt ≤ id.toInt ∧ id.toInt < b.base.toInt + b.size.toInt := by
  obtain ⟨k, hk, rfl⟩ := mem_map.1 h
  have hsize := b.size.toInt_lt
  have hlow := b.base.le_toInt
  rw [mem_range, ← Int32.toNat_toInt] at hk
  rw [hone, Int64.mul_one, Int64.toInt_add, Int64.toInt_ofNat_of_lt (by omega),
    bmod_eq_of_le (by omega) (by omega)]
  omega

/-- In every run in which batches are asked of members whose counters have seen all
batches of the generator before, no two batches of a generator share an id. -/
theorem flake_ids_unique {ι : Type} [DecidableEq ι] [Crc32fast] (shards memberId : ι → ℕ)
    (w : FlakeCluster ι)
    (h : Trace.Reaches FlakeCluster.exec FlakeCluster.Allows
      (FlakeCluster.start shards memberId) w) :
    w.batches.Pairwise fun b b' => b.name = b'.name → ∀ id ∈ b.ids, id ∉ b'.ids := by
  have hinv : w.Inv :=
    h.invariant (fun _ _ hw hok => hw.exec hok) (FlakeCluster.inv_start shards memberId)
  have hids : ∀ b ∈ w.batches, ∀ id ∈ b.ids,
      b.base.toInt ≤ id.toInt ∧ id.toInt < b.base.toInt + b.size.toInt := by
    intro b hb id hid
    obtain ⟨hone, hle⟩ := hinv.below b hb
    exact IdBatch.mem_ids hone (lt_of_le_of_lt hle (hinv.bounded b.name)) hid
  refine hinv.ordered.imp_of_mem fun hb hb' hle hname id hid hid' => ?_
  have hbefore := (hids _ hb id hid).2
  have hafter := (hids _ hb' id hid').1
  have hend := hle hname
  omega

theorem valid_tickets : Utf8.valid [116] = true := by decide

def tickets : Str := ⟨[116], valid_tickets⟩

def flakePair : FlakeCluster Bool := .start (fun _ => 1) fun i => cond i 1 0

def handedOn : List (FlakeEvent Bool) :=
  [.call false (.flakeBatch tickets 10), .send false (partitionForName tickets 271) 271,
    .deliver true 0, .call true (.flakeBatch tickets 5)]

theorem allowed_handedOn :
    Trace.Allowed FlakeCluster.exec FlakeCluster.Allows flakePair handedOn := by
  refine ⟨?_, fun _ _ _ h => (by cases h), fun _ _ _ h => (by cases h), ?_, trivial⟩
  · rintro _ _ _ ⟨⟩
    decide +kernel
  · rintro _ _ _ ⟨⟩
    decide +kernel

theorem flake_ids_unique_handedOn :
    (handedOn.foldl FlakeCluster.exec flakePair).batches =
        [⟨tickets, 1, 1, 10⟩, ⟨tickets, 11, 1, 5⟩] ∧
      (handedOn.foldl FlakeCluster.exec flakePair).batches.Pairwise fun b b' =>
        b.name = b'.name → ∀ id ∈ b.ids, id ∉ b'.ids :=
  ⟨by decide +kernel, flake_ids_unique _ _ _ (.of_allowed handedOn allowed_handedOn)⟩

def bothAsked : List (FlakeEvent Bool) :=
  [.call false (.flakeBatch tickets 10), .call true (.flakeBatch tickets 10)]

def askedAgain : List (FlakeEvent Bool) :=
  [.call false (.flakeBatch tickets 10), .die false,
    .recover false {} 1 0 fun _ => ⟨⟨0, 0⟩, 0⟩, .call false (.flakeBatch tickets 10)]

/-- One batch twice. -/
def repeated : List IdBatch := [⟨tickets, 1, 1, 10⟩, ⟨tickets, 1, 1, 10⟩]

theorem not_pairwise_repeated :
    ¬ repeated.Pairwise fun b b' => b.name = b'.name → ∀ id ∈ b.ids, id ∉ b'.ids := by
  have hfirst : (1 : Int64) ∈ IdBatch.ids ⟨tickets, 1, 1, 10⟩ := by decide +kernel
  intro h
  exact (pairwise_cons.1 h).1 _ (mem_singleton_self _) rfl 1 hfirst hfirst

/-- Two members return the same ids, and so does one member before and after a restart. -/
theorem flake_ids_repeat :
    (bothAsked.foldl FlakeCluster.exec flakePair).batches = repeated ∧
      (askedAgain.foldl FlakeCluster.exec flakePair).batches = repeated ∧
      ¬ repeated.Pairwise fun b b' => b.name = b'.name → ∀ id ∈ b.ids, id ∉ b'.ids :=
  ⟨by decide +kernel, by decide +kernel, not_pairwise_repeated⟩

end Server

end BonsaiGrid
