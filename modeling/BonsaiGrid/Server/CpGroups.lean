import BonsaiGrid.Cp.Restart
import BonsaiGrid.Cp.Wire
import BonsaiGrid.Lib.Channel
import BonsaiGrid.Protocol.Frame

/-!
# Named CP groups

A member runs one CP group per name. A group beside the default one is built when its name is
first met, in a request or in a message of another member.
-/

namespace BonsaiGrid.Server

open Function Raft Cp Protocol RaftNode LittleEndian List Option AList

inductive ReplyKind where
  | long
  | bool
  | void
  | data
  | int
  | session
deriving DecidableEq, Repr

structure Caller where
  conn : ℕ
  correlation : Int64
  respType : Int32
  kind : ReplyKind
deriving DecidableEq, Repr

/-- What a response holds beside the time limits of a session, which are constants. -/
inductive Payload where
  | long (v : Int64)
  | bool (b : Bool)
  | void
  | data (d : Option Bytes)
  | int (v : Int32)
  | session (id : Int64)
deriving DecidableEq, Repr

structure Response where
  respType : Int32
  correlation : Int64
  payload : Payload
deriving DecidableEq, Repr

def longOf : CpReply → Int64
  | .long v => v
  | _ => 0

def dataOf : CpReply → Option Bytes
  | .data d => d
  | _ => none

/-- `build_response`, before it is written. -/
def buildResponse (respType : Int32) (kind : ReplyKind) (reply : CpReply) (corr : Int64) :
    Response where
  respType := respType
  correlation := corr
  payload :=
    match kind with
    | .long => .long (longOf reply)
    | .bool => .bool (reply = .bool true)
    | .void => .void
    | .data => .data (dataOf reply)
    | .int => .int (longOf reply).toInt32
    | .session => .session (longOf reply)

def Caller.answer (caller : Caller) (reply : CpReply) : ℕ × Response :=
  (caller.conn, buildResponse caller.respType caller.kind reply caller.correlation)

theorem valid_defaultGroup : Utf8.valid [0x64, 0x65, 0x66, 0x61, 0x75, 0x6C, 0x74] = true := by
  decide

def defaultGroup : Str := ⟨[0x64, 0x65, 0x66, 0x61, 0x75, 0x6C, 0x74], valid_defaultGroup⟩

def cpGroupName (req : List Frame) : Str :=
  match req[3]? with
  | none => defaultGroup
  | some f =>
    if (Str.fromUtf8Lossy f.content).bytes = [] then defaultGroup else .fromUtf8Lossy f.content

def groupSeed (name : Str) : UInt64 :=
  name.bytes.foldl (fun h b => (h ^^^ b.toUInt64) * 0x100000001b3) 0xcbf29ce484222325

def tagGroup (group : Str) (msg : CpMsg) : Bytes :=
  encode 2 group.bytes.length ++ (group.bytes ++ encodeMsg msg)

def untagGroup (payload : Bytes) : Option (Str × CpMsg) :=
  if payload.length < 2 then none
  else
    let glen := decode (payload.take 2)
    if payload.length < 2 + glen then none
    else
      (decodeMsg (payload.drop (2 + glen))).map fun msg =>
        (.fromUtf8Lossy ((payload.drop 2).take glen), msg)

structure Tagged where
  dst : NodeId
  group : Str
  msg : CpMsg

def Tagged.payload (t : Tagged) : Bytes := tagGroup t.group t.msg

structure CpState where
  selfIndex : NodeId
  groupSize : ℕ
  groups : Dict Str CpGroup
  pending : Dict ClientId Caller
  nextClient : ClientId

namespace CpState

def route (group : Str) (out : CpOut) : List Tagged := out.map fun o => ⟨o.1, group, o.2⟩

def multi (group : CpGroup) (selfIndex : NodeId) (groupSize : ℕ) : CpState where
  selfIndex := selfIndex
  groupSize := groupSize
  groups := AList.singleton defaultGroup group
  pending := ∅
  nextClient := 1

variable (s : CpState) (name : Str)

def newGroup : CpGroup :=
  .new (new s.selfIndex (range s.groupSize) RaftLog.new
    (UInt64.ofNat s.selfIndex + 1 + groupSeed name))

def groupMut : CpGroup := (s.groups.lookup name).getD (s.newGroup name)

def onGroup (call : CpGroup → CpGroup × CpOut) :
    CpState × List Tagged :=
  ({ s with groups := s.groups.insert name (call (s.groupMut name)).1 },
    route name (call (s.groupMut name)).2)

def record (caller : Caller) : CpState :=
  { s with
    nextClient := s.nextClient + 1
    pending := s.pending.insert s.nextClient caller }

def settle : Dict ClientId Caller → List Completion →
    Dict ClientId Caller × List (ℕ × Response)
  | pending, [] => (pending, [])
  | pending, c :: cs =>
    match pending.lookup c.client with
    | none => settle pending cs
    | some caller =>
      let r := settle (pending.erase c.client) cs
      (r.1, caller.answer c.reply :: r.2)

def drainDeliveries : CpState × List (ℕ × Response) :=
  let r := settle s.pending (s.groups.entries.flatMap fun e => e.2.completions)
  ({ s with
      groups := Dict.mapVal (fun g => { g with completions := [] }) s.groups
      pending := r.1 }, r.2)

section Operations

variable [Crc32fast] (s : CpState)

def submitTo (name : Str) (caller : Caller) (command : Bytes) :
    CpState × List Tagged :=
  (s.record caller).onGroup name (·.submit s.nextClient command)

def step (src : NodeId) (payload : Bytes) : CpState × List Tagged :=
  match untagGroup payload with
  | none => (s, [])
  | some (group, msg) => s.onGroup group (·.step src msg)

def tick : CpState × List Tagged :=
  ({ s with groups := Dict.mapVal (fun g => g.tick.1) s.groups },
    s.groups.entries.flatMap fun e => route e.1 e.2.tick.2)

end Operations

end CpState

structure TaggedPacket extends Tagged where
  src : NodeId

/-- The members, and the messages that were emitted and not delivered yet. -/
structure CpNetwork where
  members : NodeId → CpState
  flight : List TaggedPacket

/-- A request of a client, a message, a tick, or the answers to the clients of a member. -/
inductive CpEvent where
  | submit (i : NodeId) (req : List Frame) (caller : Caller) (command : Bytes)
  | deliver (k : ℕ)
  | tick (i : NodeId)
  | drain (i : NodeId)

variable (n : ℕ)

namespace CpNetwork

def init : CpNetwork where
  members := fun i =>
    .multi (.new (new i (range n) RaftLog.new (UInt64.ofNat i + 1))) i n
  flight := []

def move (s : CpNetwork) (i : NodeId) (r : CpState × List Tagged) : CpNetwork where
  members := update s.members i r.1
  flight := s.flight ++ r.2.map fun t => { t with src := i }

def group (s : CpNetwork) (i : NodeId) (name : Str) : CpGroup := (s.members i).groupMut name

section Events

variable [Crc32fast] (s : CpNetwork)

def exec : CpEvent → CpNetwork
  | .submit i req caller command =>
    s.move i ((s.members i).submitTo (cpGroupName req) caller command)
  | .deliver k =>
    match s.flight[k]? with
    | none => s
    | some p =>
      { s with flight := s.flight.eraseIdx k }.move p.dst
        ((s.members p.dst).step p.src p.payload)
  | .tick i => s.move i (s.members i).tick
  | .drain i => s.move i ((s.members i).drainDeliveries.1, [])

variable (name : Str)

def Short : Prop := name.bytes.length < 2 ^ 16

instance  : Decidable (Short name) :=
  inferInstanceAs (Decidable (name.bytes.length < 2 ^ 16))

/-- The requests are for groups with short names. -/
def Allows : CpEvent → Prop
  | .submit _ req _ _ => Short (cpGroupName req)
  | .deliver k => ∀ p ∈ s.flight[k]?, p.msg.Fits
  | .tick _ => True
  | .drain _ => True

instance  : ∀ e, Decidable (s.Allows e)
  | .submit _ req _ _ => inferInstanceAs (Decidable (Short (cpGroupName req)))
  | .deliver k => inferInstanceAs (Decidable (∀ p ∈ s.flight[k]?, p.msg.Fits))
  | .tick _ | .drain _ => isTrue trivial

/-! ## One group of the network -/

def ofGroup (p : TaggedPacket) : Option CpPacket :=
  if p.group = name then some ⟨p.src, p.dst, p.msg⟩ else none

/-- The calls on the group that an event is. -/
def callsOn : CpEvent → List CpCall
  | .submit i req _ command =>
    if cpGroupName req = name then [.submit i (s.members i).nextClient command] else []
  | .deliver k =>
    if s.flight[k]?.any fun p => p.group = name then
      [.deliver (Channel.place (ofGroup name) s.flight k)]
    else []
  | .tick i => if name ∈ (s.members i).groups then [.tick i] else []
  | .drain i => if name ∈ (s.members i).groups then [.takeCompletions i] else []

def callsAlong (name : Str) : CpNetwork → List CpEvent → List CpCall
  | _, [] => []
  | s, e :: events => s.callsOn name e ++ callsAlong name (s.exec e) events

def seeds (i : NodeId) : UInt64 :=
  if name = defaultGroup then UInt64.ofNat i + 1 else UInt64.ofNat i + 1 + groupSeed name

/-- The group on all members, and its messages, are those of the single group. -/
structure Shows (s : CpNetwork) (name : Str) (m : Members) : Prop where
  groups : ∀ i, s.group i name = m.groups i
  flight : s.flight.filterMap (ofGroup name) = m.flight

end Events

end CpNetwork

/-! ## Payloads -/

theorem untagGroup_append {n : ℕ} {front : Bytes} (hn : n % 2 ^ 16 = front.length) (rest : Bytes) :
    untagGroup (encode 2 n ++ (front ++ rest)) =
      (decodeMsg rest).map fun msg => (.fromUtf8Lossy front, msg) := by
  have hglen : decode ((encode 2 n ++ (front ++ rest)).take 2) =
      front.length := by
    rw [take_left' (encode_length 2 n), decode_encode_mod]
    exact hn
  have hlen : (encode 2 n ++ (front ++ rest)).length =
      2 + (front.length + rest.length) := by
    rw [length_append, length_append, encode_length]
  have htwo : ¬ (encode 2 n ++ (front ++ rest)).length < 2 := by omega
  have hname : ¬ (encode 2 n ++ (front ++ rest)).length < 2 + front.length := by
    omega
  rw [untagGroup, if_neg htwo]
  rw [hglen, if_neg hname, ← drop_drop, drop_encode, drop_left,
    take_left]

theorem untagGroup_tagGroup {group : Str} {msg : CpMsg} (hgroup : CpNetwork.Short group)
    (hmsg : msg.Fits) : untagGroup (tagGroup group msg) = some (group, msg) := by
  have hround := decodeMsg_encodeMsg hmsg []
  rw [append_nil] at hround
  rw [tagGroup, untagGroup_append (Nat.mod_eq_of_lt hgroup), hround, map_some,
    Str.fromUtf8Lossy_bytes]

/-! ## Calls on the groups of a member -/

namespace CpState

variable {s : CpState} {name other : Str} {call : CpGroup → CpGroup × CpOut}

theorem groupMut_record (caller : Caller) : (s.record caller).groupMut name = s.groupMut name := rfl

theorem groupMut_onGroup_self :
    (s.onGroup name call).1.groupMut name = (call (s.groupMut name)).1 := by
  rw [groupMut, onGroup, lookup_insert, getD_some]

theorem groupMut_onGroup_of_ne (h : name ≠ other) :
    (s.onGroup other call).1.groupMut name = s.groupMut name := by
  rw [groupMut, onGroup, lookup_insert_ne h]
  rfl

theorem mem_onGroup : name ∈ (s.onGroup other call).1.groups ↔ name = other ∨ name ∈ s.groups :=
  mem_insert s.groups

end CpState

namespace CpNetwork

variable {s : CpNetwork} {name other : Str} {i j : NodeId} {c : CpState}

section Moves

variable {r : CpState × List Tagged}

theorem members_move_self : (s.move i r).members i = r.1 := by
  simp [move]

theorem members_move_of_ne (h : j ≠ i) : (s.move i r).members j = s.members j := by
  simp [move, h]

theorem group_move_self : (s.move i r).group i name = r.1.groupMut name := by
  rw [group, members_move_self]

theorem group_move_of_ne (h : j ≠ i) : (s.move i r).group j name = s.group j name := by
  rw [group, members_move_of_ne h, group]

end Moves

theorem filterMap_route_self (out : CpOut) :
    ((CpState.route name out).map fun t => ({ t with src := i } : TaggedPacket)).filterMap
      (ofGroup name) = out.map fun o => ⟨i, o.1, o.2⟩ := by
  simp [CpState.route, ofGroup, filterMap_map, comp_def]

theorem filterMap_route_of_ne (h : other ≠ name) (out : CpOut) :
    ((CpState.route other out).map fun t => ({ t with src := i } : TaggedPacket)).filterMap
      (ofGroup name) = [] := by
  simp [CpState.route, ofGroup, filterMap_map, comp_def, h]

namespace Shows

variable {m : Members} {f : CpGroup → CpGroup × CpOut}

theorem call (h : s.Shows name m) (hc : c.groupMut name = s.group i name)
    (ps : List Proposal) (es : List Entry) :
    (s.move i (c.onGroup name f)).Shows name (m.move i (f (m.groups i)) ps es) := by
  constructor
  · intro j
    by_cases hj : j = i
    · subst hj
      rw [group_move_self, CpState.groupMut_onGroup_self, hc, h.groups]
      simp [Members.move]
    · rw [group_move_of_ne hj, h.groups]
      simp [Members.move, hj]
  · simp only [move, CpState.onGroup, filterMap_append, filterMap_route_self, h.flight, hc,
      h.groups, Members.move]

theorem call_other (h : s.Shows name m) (hc : c.groupMut name = s.group i name)
    (hne : other ≠ name) : (s.move i (c.onGroup other f)).Shows name m := by
  constructor
  · intro j
    by_cases hj : j = i
    · subst hj
      rw [group_move_self, CpState.groupMut_onGroup_of_ne hne.symm, hc, h.groups]
    · rw [group_move_of_ne hj, h.groups]
  · simp only [move, CpState.onGroup, filterMap_append, filterMap_route_of_ne hne,
      append_nil, h.flight]

/-- What is done on every group of a member is a call on the single group, if the member runs
the group, and otherwise none. -/
theorem all (h : s.Shows name m) {r : CpState × List Tagged}
    (hgroup : r.1.groupMut name = (((s.members i).groups.lookup name).map fun g => (f g).1).getD
      ((s.members i).newGroup name))
    (hout : r.2 = (s.members i).groups.entries.flatMap fun e => CpState.route e.1 (f e.2).2) :
    (name ∉ (s.members i).groups → (s.move i r).Shows name m) ∧
      (name ∈ (s.members i).groups → ∀ ps es,
        (s.move i r).Shows name (m.move i (f (m.groups i)) ps es)) := by
  have hother : ∀ e : Sigma fun _ : Str => CpGroup, e.1 ≠ name →
      ((CpState.route e.1 (f e.2).2).map fun t =>
        ({ t with src := i } : TaggedPacket)).filterMap (ofGroup name) = [] :=
    fun e he => filterMap_route_of_ne he _
  have hflight : (s.move i r).flight.filterMap (ofGroup name) = m.flight ++
      (((s.members i).groups.lookup name).map fun g =>
        (f g).2.map fun o => (⟨i, o.1, o.2⟩ : CpPacket)).getD [] := by
    simp only [move, hout, filterMap_append, h.flight, map_flatMap,
      Channel.filterMap_flatMap_entries hother, filterMap_route_self]
  have hsame : ∀ j ≠ i, (s.move i r).group j name = m.groups j := fun j hj => by
    rw [group_move_of_ne hj, h.groups]
  have hi := h.groups i
  rw [group, CpState.groupMut] at hi
  constructor
  · intro hmem
    rw [lookup_eq_none.mpr hmem] at hflight hgroup hi
    refine ⟨fun j => ?_, hflight.trans (append_nil _)⟩
    by_cases hj : j = i
    · subst hj
      exact group_move_self.trans (hgroup.trans hi)
    · exact hsame j hj
  · intro hmem ps es
    obtain ⟨g, hg⟩ := isSome_iff_exists.mp (lookup_isSome.mpr hmem)
    rw [hg] at hflight hgroup hi
    rw [← hi]
    refine ⟨fun j => ?_, hflight⟩
    by_cases hj : j = i
    · subst hj
      rw [group_move_self, hgroup]
      simp [Members.move]
    · rw [hsame j hj]
      simp [Members.move, hj]

section Events

variable [Crc32fast]

theorem submit (h : s.Shows name m) (req : List Frame) (caller : Caller) (command : Bytes) :
    (s.exec (.submit i req caller command)).Shows name
      (m.execAll (s.callsOn name (.submit i req caller command))) := by
  rw [callsOn]
  by_cases hreq : cpGroupName req = name
  · subst hreq
    rw [if_pos rfl]
    have hsubmitted : s.Shows (cpGroupName req)
        { m with submitted := m.submitted ++ [((s.members i).nextClient, command)] } :=
      ⟨h.groups, h.flight⟩
    exact hsubmitted.call (f := (·.submit (s.members i).nextClient command))
      (CpState.groupMut_record caller) _ _
  · rw [if_neg hreq]
    exact h.call_other (CpState.groupMut_record caller) hreq

theorem deliver (h : s.Shows name m) {k : ℕ} (hshort : ∀ p ∈ s.flight, Short p.group)
    (hfits : ∀ p ∈ s.flight[k]?, p.msg.Fits) :
    (s.exec (.deliver k)).Shows name (m.execAll (s.callsOn name (.deliver k))) := by
  cases hk : s.flight[k]? with
  | none => simpa [exec, callsOn, hk, Members.execAll] using h
  | some p =>
    have huntag : untagGroup p.payload = some (p.group, p.msg) :=
      untagGroup_tagGroup (hshort p (mem_of_getElem? hk)) (hfits p hk)
    simp only [exec, callsOn, hk, CpState.step, huntag, any_some, decide_eq_true_eq]
    by_cases hp : p.group = name
    · have hof : ofGroup name p = some ⟨p.src, p.dst, p.msg⟩ := if_pos hp
      have hat : m.flight[Channel.place (ofGroup name) s.flight k]? =
          some ⟨p.src, p.dst, p.msg⟩ := by
        rw [← h.flight]
        exact Channel.filterMap_getElem? hk hof
      have herase : ({ s with flight := s.flight.eraseIdx k } : CpNetwork).Shows name
          { m with flight := m.flight.eraseIdx (Channel.place (ofGroup name) s.flight k) } := by
        refine ⟨h.groups, ?_⟩
        rw [← h.flight]
        exact Channel.filterMap_eraseIdx hk hof
      rw [if_pos hp, hp]
      simp only [Members.execAll, foldl_cons, foldl_nil, Members.exec, hat]
      exact herase.call rfl _ _
    · have hof : ofGroup name p = none := if_neg hp
      have herase : ({ s with flight := s.flight.eraseIdx k } : CpNetwork).Shows name m := by
        refine ⟨h.groups, ?_⟩
        rw [← h.flight]
        exact Channel.filterMap_eraseIdx_of_none hk hof
      rw [if_neg hp]
      exact herase.call_other rfl hp

theorem tick (h : s.Shows name m) :
    (s.exec (.tick i)).Shows name (m.execAll (s.callsOn name (.tick i))) := by
  have hgroup : (s.members i).tick.1.groupMut name =
      (((s.members i).groups.lookup name).map fun g => g.tick.1).getD
        ((s.members i).newGroup name) := by
    rw [CpState.groupMut, CpState.tick, Dict.lookup_mapVal]
    rfl
  obtain ⟨hout, hin⟩ := h.all (f := (·.tick)) hgroup rfl
  rw [callsOn]
  split
  · exact hin ‹_› _ _
  · exact hout ‹_›

theorem drain (h : s.Shows name m) :
    (s.exec (.drain i)).Shows name (m.execAll (s.callsOn name (.drain i))) := by
  have hgroup : (s.members i).drainDeliveries.1.groupMut name =
      (((s.members i).groups.lookup name).map fun g => { g with completions := [] }).getD
        ((s.members i).newGroup name) := by
    rw [CpState.groupMut, CpState.drainDeliveries, Dict.lookup_mapVal]
    rfl
  obtain ⟨hout, hin⟩ := h.all (f := fun g => ({ g with completions := [] }, []))
    (r := ((s.members i).drainDeliveries.1, [])) hgroup (by simp [CpState.route])
  rw [callsOn]
  split
  · have htaken := hin ‹_› [] []
    exact ⟨htaken.groups, htaken.flight.trans (append_nil _)⟩
  · exact hout ‹_›

end Events

end Shows

/-! ## Runs -/

structure Named (s : CpNetwork) : Prop where
  flight : ∀ p ∈ s.flight, Short p.group
  groups : ∀ i, ∀ name ∈ (s.members i).groups, Short name

theorem short_route {out : CpOut} (h : Short name) :
    ∀ t ∈ CpState.route name out, Short t.group := by
  intro t ht
  obtain ⟨o, -, rfl⟩ := mem_map.mp ht
  exact h

namespace Named

theorem move (h : s.Named) {r : CpState × List Tagged} (hgroups : ∀ name ∈ r.1.groups, Short name)
    (hout : ∀ t ∈ r.2, Short t.group) : (s.move i r).Named := by
  constructor
  · intro p hp
    rcases mem_append.mp hp with hold | hnew
    · exact h.flight p hold
    · obtain ⟨t, ht, rfl⟩ := mem_map.mp hnew
      exact hout t ht
  · intro j name hname
    by_cases hj : j = i
    · subst hj
      rw [members_move_self] at hname
      exact hgroups name hname
    · rw [members_move_of_ne hj] at hname
      exact h.groups j name hname

theorem onGroup (h : s.Named) (hname : Short name) (hc : c.groups = (s.members i).groups)
    (f : CpGroup → CpGroup × CpOut) : (s.move i (c.onGroup name f)).Named := by
  refine h.move (fun other hother => ?_) (short_route hname)
  rcases CpState.mem_onGroup.mp hother with rfl | hold
  · exact hname
  · rw [hc] at hold
    exact h.groups i other hold

theorem mem_mapVal {V W : Type} {f : V → W} {d : Dict Str V} :
    name ∈ Dict.mapVal f d ↔ name ∈ d := by
  rw [← lookup_isSome, ← lookup_isSome, Dict.lookup_mapVal, isSome_map]

variable [Crc32fast]

theorem exec (h : s.Named) {e : CpEvent} (hallows : s.Allows e) : (s.exec e).Named := by
  cases e with
  | submit i req caller command =>
    exact h.onGroup (c := (s.members i).record caller) hallows rfl _
  | deliver k =>
    cases hk : s.flight[k]? with
    | none => simpa [CpNetwork.exec, hk] using h
    | some p =>
      have hshort := h.flight p (mem_of_getElem? hk)
      have hmsg : untagGroup p.payload = some (p.group, p.msg) :=
        untagGroup_tagGroup hshort (hallows p hk)
      have herased : ({ s with flight := s.flight.eraseIdx k } : CpNetwork).Named :=
        ⟨fun q hq => h.flight q (mem_of_mem_eraseIdx hq), h.groups⟩
      simp only [CpNetwork.exec, hk, CpState.step, hmsg]
      exact herased.onGroup hshort rfl _
  | tick i =>
    refine h.move (fun name hname => h.groups i name (mem_mapVal.mp hname)) fun t ht => ?_
    obtain ⟨e, he, ht⟩ := mem_flatMap.mp ht
    exact short_route (h.groups i e.1 (mem_keys.mpr (mem_map_of_mem he))) t ht
  | drain i =>
    exact h.move (fun name hname => h.groups i name (mem_mapVal.mp hname)) (by simp)

end Named

theorem named_init : (init n).Named := by
  constructor
  · intro p hp
    cases hp
  · intro i name hname
    have heq : name = defaultGroup := by
      exact mem_singleton.mp hname
    subst heq
    decide

theorem shows_init (name : Str) :
    (init n).Shows name (Members.init (serverGroup n (seeds name))) := by
  constructor
  · intro i
    by_cases hname : name = defaultGroup
    · subst hname
      rfl
    · have hlookup : ((init n).members i).groups.lookup name = none := by
        rw [lookup_eq_none]
        exact fun hmem => hname (mem_singleton.mp hmem)
      rw [group, CpState.groupMut, hlookup]
      simp only [Members.init, seeds, serverGroup, if_neg hname]
      rfl
  · rfl

/-- The groups that an event is for: that of a request, that of the message; a member's clock
and its answers are for all of its groups. -/
def Concerns (s : CpNetwork) (name : Str) : CpEvent → Prop
  | .submit _ req _ _ => cpGroupName req = name
  | .deliver k => ∃ p ∈ s.flight[k]?, p.group = name
  | .tick _ => True
  | .drain _ => True

theorem callsOn_of_not_concerns {e : CpEvent} (h : ¬ s.Concerns name e) : s.callsOn name e = [] := by
  cases e with
  | submit i req caller command => exact if_neg h
  | deliver k =>
    refine if_neg fun hany => h ?_
    cases hk : s.flight[k]? with
    | none =>
      rw [hk] at hany
      cases hany
    | some p =>
      rw [hk] at hany
      exact ⟨p, hk, of_decide_eq_true hany⟩
  | tick i | drain i => exact absurd trivial h

section Runs

variable [Crc32fast] {m : Members}

theorem Shows.exec (h : s.Shows name m) (hs : s.Named) {e : CpEvent} (hallows : s.Allows e) :
    (s.exec e).Shows name (m.execAll (s.callsOn name e)) := by
  cases e with
  | submit i req caller command => exact h.submit req caller command
  | deliver k => exact h.deliver hs.flight hallows
  | tick i => exact h.tick
  | drain i => exact h.drain

theorem Shows.execAll (h : s.Shows name m) (hs : s.Named) (events : List CpEvent)
    (hallowed : Trace.Allowed CpNetwork.exec Allows s events) :
    (events.foldl CpNetwork.exec s).Shows name (m.execAll (callsAlong name s events)) := by
  induction events generalizing s m with
  | nil => exact h
  | cons e events ih =>
    rw [callsAlong, Members.execAll, foldl_append]
    exact ih (h.exec hs hallowed.1) (hs.exec hallowed.1) hallowed.2

theorem Named.execAll (hs : s.Named) (events : List CpEvent)
    (hallowed : Trace.Allowed CpNetwork.exec Allows s events) :
    (events.foldl CpNetwork.exec s).Named :=
  (Trace.Reaches.of_allowed events hallowed).invariant (fun _ _ h => h.exec) hs

/-- The groups of a cluster, in every run in which the names of the groups are shorter than
`2 ^ 16` bytes. A payload is read as the message that was sent, for the group it was sent for. On
all members together a group is the single group, driven by the calls on it and by nothing that is
for other groups; so a request or a message for one group changes no other group anywhere. -/
theorem cp_groups_isolated (n : ℕ) (events : List CpEvent)
    (h : Trace.Allowed exec Allows (init n) events) :
    let s := events.foldl exec (init n)
    (∀ p ∈ s.flight, p.msg.Fits → untagGroup p.payload = some (p.group, p.msg)) ∧
      (∀ name, s.Shows name
        ((Members.init (serverGroup n (seeds name))).execAll (callsAlong name (init n) events))) ∧
      ∀ e, s.Allows e → ∀ name, ¬ s.Concerns name e →
        ∀ i, (s.exec e).group i name = s.group i name := by
  intro s
  have hnamed : s.Named := (named_init n).execAll events h
  have hshows : ∀ name, s.Shows name _ := fun name =>
    (shows_init n name).execAll (named_init n) events h
  refine ⟨fun p hp hfits => untagGroup_tagGroup (hnamed.flight p hp) hfits, hshows, ?_⟩
  intro e hallows name hother i
  have hnext := (hshows name).exec hnamed hallows
  rw [callsOn_of_not_concerns hother] at hnext
  exact (hnext.groups i).trans ((hshows name).groups i).symm

end Runs

def counterOn (s : CpNetwork) (i : NodeId) (name : Str) : CpReply :=
  ((s.group i name).sm.apply (alCommand counterName .get)).2

def someone : Caller := ⟨1, 1, 0, .long⟩

/-- Member `0` is asked to add `5` to the counter of the group `c`, and both groups begin an
election. -/
def counterEvents : List CpEvent :=
  .submit 0 [⟨0, []⟩, ⟨0, []⟩, ⟨0, []⟩, ⟨0, [99]⟩] someone
      (alCommand counterName (.addAndGet 5)) ::
    replicate 12 (.tick 0) ++
    [.deliver 1, .deliver 1, .tick 0, .tick 0, .deliver 3, .deliver 3, .drain 0]

set_option maxRecDepth 100000 in
theorem cp_groups_isolated_counter :
    let s := counterEvents.foldl exec (init 2)
    s.counterOn 0 counterName = .long 5 ∧ s.counterOn 0 defaultGroup = .long 0 ∧
      (∀ p ∈ s.flight, p.msg.Fits → untagGroup p.payload = some (p.group, p.msg)) ∧
      ∀ e, s.Allows e → ∀ name, ¬ s.Concerns name e →
        ∀ i, (s.exec e).group i name = s.group i name :=
  have h := cp_groups_isolated 2 counterEvents (by decide +kernel)
  ⟨by decide +kernel, by decide +kernel, h.1, h.2.2⟩

/-! ## The callers -/

/-- Each request that is complete is answered, once, to the connection and with the correlation id
of the one who made it. -/
theorem deliveries_settle {cs : List Completion} (pending : Dict ClientId Caller)
    (hnodup : (cs.map Completion.client).Nodup) :
    (CpState.settle pending cs).2 =
      cs.filterMap fun c => (pending.lookup c.client).map fun caller => caller.answer c.reply := by
  induction cs generalizing pending with
  | nil => rfl
  | cons c cs ih =>
    rw [map_cons, nodup_cons] at hnodup
    rw [CpState.settle, filterMap_cons]
    split
    next hnone =>
      rw [hnone]
      exact ih pending hnodup.2
    next caller hcaller =>
      rw [hcaller]
      refine congrArg (caller.answer c.reply :: ·) ((ih _ hnodup.2).trans ?_)
      refine filterMap_congr fun d hd => ?_
      have hne : d.client ≠ c.client := fun heq => hnodup.1 (heq ▸ mem_map_of_mem hd)
      rw [lookup_erase_ne hne]

/-! ## A name that is too long -/

/-- A follower that knows no leader and has nothing to apply or to fold away. -/
structure Idle (g : CpGroup) : Prop where
  role : g.raft.role = .follower
  leader : g.raft.leader = none
  commit : g.raft.commitIndex = g.raft.lastApplied
  log : g.raft.log.len ≤ compactKeep

theorem idle_init (seed : NodeId → UInt64) (i : NodeId) :
    Idle ((Members.init (serverGroup n seed)).groups i) :=
  ⟨rfl, rfl, rfl, Nat.zero_le compactKeep⟩

section Ticks

variable [Crc32fast] {m : Members} {g : CpGroup}

theorem Idle.submit_raft (h : Idle g) (client : ClientId) (command : Bytes) :
    (g.submit client command).1.raft = g.raft := by
  simp [CpGroup.submit, CpGroup.route, isLeader, h.role, h.leader]

theorem Idle.submit (h : Idle g) (client : ClientId) (command : Bytes) :
    Idle (g.submit client command).1 := by
  constructor
  · rw [h.submit_raft, h.role]
  · rw [h.submit_raft, h.leader]
  · rw [h.submit_raft, h.commit]
  · rw [h.submit_raft]
    exact h.log

theorem Idle.tick (h : Idle g) (hearly : g.raft.elapsed + 1 < g.raft.electionTimeout) :
    g.tick = ({ g with raft := { g.raft with elapsed := g.raft.elapsed + 1 } }, []) := by
  obtain ⟨hrole, hleader, hcommit, hlog⟩ := h
  have htick : g.raft.tick = ({ g.raft with elapsed := g.raft.elapsed + 1 }, []) := by
    simp [RaftNode.tick, hrole, Nat.not_le.mpr hearly]
  simp [CpGroup.tick, htick, CpGroup.flush, CpGroup.tickSessions, RaftNode.isLeader, hrole, hleader,
    CpGroup.applyCommitted, takeCommitted, hcommit, committedFrom,
    CpGroup.applyAll, maybeCompact, hlog, raftOut]

theorem Idle.exists_mem_tick (h : Idle g) (hlate : g.raft.electionTimeout ≤ g.raft.elapsed + 1)
    {p : NodeId} (hp : p ∈ g.raft.peers) (hne : p ≠ g.raft.id) : ∃ msg, (p, msg) ∈ g.tick.2 := by
  obtain ⟨o, ho, hdst⟩ : ∃ o ∈ g.raft.tick.2, o.1 = p := by
    simp only [RaftNode.tick, h.role, hlate, if_true, RaftNode.startElection]
    refine ⟨_, mem_append_left _ (mem_voteRequests.mpr ⟨p, ⟨?_, ?_⟩, rfl⟩), rfl⟩
    · simpa [asCandidate] using hp
    · simpa [asCandidate] using hne
  refine ⟨.raft o.2, mem_append_left _ (mem_append_left _ ?_)⟩
  exact mem_map.mpr ⟨o, ho, by rw [hdst]⟩

theorem exists_mem_flight_ticks {i p : NodeId} (h : Idle (m.groups i))
    (hp : p ∈ (m.groups i).raft.peers) (hne : p ≠ (m.groups i).raft.id) :
    ∃ t, ∃ q ∈ (m.execAll (replicate t (.tick i))).flight, q.src = i ∧ q.dst = p := by
  induction hwait : (m.groups i).raft.electionTimeout - (m.groups i).raft.elapsed generalizing m with
  | zero =>
    obtain ⟨msg, hmsg⟩ := h.exists_mem_tick (by omega) hp hne
    exact ⟨1, ⟨i, p, msg⟩, mem_append_right _ (mem_map_of_mem hmsg), rfl, rfl⟩
  | succ wait ih =>
    by_cases hlate : (m.groups i).raft.electionTimeout ≤ (m.groups i).raft.elapsed + 1
    · obtain ⟨msg, hmsg⟩ := h.exists_mem_tick hlate hp hne
      exact ⟨1, ⟨i, p, msg⟩, mem_append_right _ (mem_map_of_mem hmsg), rfl, rfl⟩
    · have hgroup : (m.exec (.tick i)).groups i = { m.groups i with
          raft := { (m.groups i).raft with elapsed := (m.groups i).raft.elapsed + 1 } } := by
        simp [Members.exec, Members.move, h.tick (Nat.not_le.mp hlate)]
      have hidle : Idle ((m.exec (.tick i)).groups i) := by
        rw [hgroup]
        exact ⟨h.role, h.leader, h.commit, h.log⟩
      obtain ⟨t, hq⟩ := ih hidle (by rw [hgroup]; exact hp) (by rw [hgroup]; exact hne)
        (by rw [hgroup]; dsimp only; omega)
      exact ⟨t + 1, hq⟩

theorem exists_mem_flight_submitted (seed : NodeId → UInt64) {i p : NodeId} (hp : p < n)
    (hne : p ≠ i) (client : ClientId) (command : Bytes) :
    ∃ t, ∃ q ∈ (((Members.init (serverGroup n seed)).execAll [.submit i client command]).execAll
      (replicate t (.tick i))).flight, q.src = i ∧ q.dst = p := by
  have hidle := idle_init n seed i
  have hgroup : ((Members.init (serverGroup n seed)).execAll [.submit i client command]).groups i =
      (((Members.init (serverGroup n seed)).groups i).submit client command).1 := by
    simp [Members.execAll, Members.exec, Members.move]
  refine exists_mem_flight_ticks ?_ ?_ ?_
  · rw [hgroup]
    exact hidle.submit client command
  · rw [hgroup, hidle.submit_raft]
    exact mem_range.mpr hp
  · rw [hgroup, hidle.submit_raft]
    exact hne

theorem Shows.ticks (h : s.Shows name m) (hmem : name ∈ (s.members i).groups) (t : ℕ) :
    ((replicate t (CpEvent.tick i)).foldl CpNetwork.exec s).Shows name
      (m.execAll (replicate t (.tick i))) := by
  induction t generalizing s m with
  | zero => exact h
  | succ t ih =>
    have htick := h.tick (i := i)
    rw [callsOn, if_pos hmem] at htick
    refine ih htick ?_
    rw [CpNetwork.exec, members_move_self]
    exact Named.mem_mapVal.mpr hmem

theorem members_ticks (hj : j ≠ i) (t : ℕ) :
    ((replicate t (CpEvent.tick i)).foldl exec s).members j = s.members j := by
  induction t generalizing s with
  | zero => rfl
  | succ t ih => exact ih.trans (members_move_of_ne hj)

end Ticks

def forged : CpMsg :=
  .raft (.appendEntries 1 0 0 0 [⟨1, 1, alCommand counterName (.addAndGet 5)⟩] 1)

def filler : Bytes := replicate (2 ^ 16 - (encodeMsg forged).length) 0x61

/-- The name of the default group, the append request, and as much behind it as makes the
length of the name exceed that of the default one by `2 ^ 16`. -/
def longBytes : Bytes :=
  defaultGroup.bytes ++ (encodeMsg forged ++ filler)

theorem length_longBytes : longBytes.length = 2 ^ 16 + defaultGroup.bytes.length := by
  have hforged : (encodeMsg forged).length ≤ 2 ^ 16 := by decide +kernel
  rw [longBytes, length_append, length_append, filler, length_replicate]
  omega

theorem valid_longBytes : Utf8.valid longBytes = true := by
  have hforged : Utf8.valid (encodeMsg forged) = true := by decide +kernel
  refine Utf8.valid_append defaultGroup.valid (Utf8.valid_append hforged ?_)
  refine Utf8.valid_of_ascii fun b hb => ?_
  rw [eq_of_mem_replicate hb]
  decide

def longName : Str := ⟨longBytes, valid_longBytes⟩

theorem longName_bytes : longName.bytes = defaultGroup.bytes ++ (encodeMsg forged ++ filler) := rfl

theorem length_longName : longName.bytes.length = 2 ^ 16 + defaultGroup.bytes.length :=
  length_longBytes

theorem untagGroup_longName (msg : CpMsg) :
    untagGroup (tagGroup longName msg) = some (defaultGroup, forged) := by
  have hlen : longName.bytes.length % 2 ^ 16 = defaultGroup.bytes.length := by
    rw [length_longName]
    rfl
  have hpayload : longName.bytes ++ encodeMsg msg =
      defaultGroup.bytes ++ (encodeMsg forged ++ (filler ++ encodeMsg msg)) := by
    rw [longName_bytes, append_assoc, append_assoc]
  rw [tagGroup, hpayload, untagGroup_append hlen, decodeMsg_encodeMsg (by decide +kernel),
    map_some, Str.fromUtf8Lossy_bytes]

def longRequest : List Frame := [⟨0, []⟩, ⟨0, []⟩, ⟨0, []⟩, ⟨0, longName.bytes⟩]

theorem longName_ne : longName ≠ defaultGroup := by
  intro heq
  have hlen := length_longName
  rw [heq] at hlen
  omega

theorem cpGroupName_longRequest : cpGroupName longRequest = longName := by
  have hne : longName.bytes ≠ [] := by
    intro hnil
    have hlen := length_longName
    rw [hnil, length_nil] at hlen
    omega
  change (if (Str.fromUtf8Lossy longName.bytes).bytes = [] then defaultGroup
    else Str.fromUtf8Lossy longName.bytes) = longName
  rw [Str.fromUtf8Lossy_bytes, if_neg hne]

def longRun (t : ℕ) : CpNetwork :=
  (replicate t (CpEvent.tick 0)).foldl exec
    ((init 2).exec (.submit 0 longRequest someone (alCommand counterName .get)))

theorem exists_mem_longRun : ∃ t, ∃ p ∈ (longRun t).flight,
    p.group = longName ∧ p.src = 0 ∧ p.dst = 1 := by
  have hshows := (shows_init 2 longName).submit (i := 0) longRequest someone
    (alCommand counterName .get)
  rw [callsOn, if_pos cpGroupName_longRequest] at hshows
  have hmem : longName ∈ (((init 2).exec (.submit 0 longRequest someone
      (alCommand counterName .get))).members 0).groups := by
    rw [exec, members_move_self, cpGroupName_longRequest]
    exact CpState.mem_onGroup.mpr (.inl rfl)
  obtain ⟨t, q, hq, hsrc, hdst⟩ := exists_mem_flight_submitted 2 (seeds longName) (i := 0) (p := 1)
    (by decide) (by decide) ((init 2).members 0).nextClient (alCommand counterName .get)
  rw [← (hshows.ticks hmem t).flight] at hq
  obtain ⟨p, hp, hof⟩ := mem_filterMap.mp hq
  rw [ofGroup, ite_none_right_eq_some] at hof
  obtain ⟨hgroup, hpacket⟩ := hof
  cases hpacket
  exact ⟨t, p, hp, hgroup, hsrc, hdst⟩

/-- A request for a group with a long name. A message of the group is read as one for the default
group by the member it is sent to, and adds `5` to a counter of the default group there. -/
theorem cp_groups_interfere : ∃ t k, ∃ p ∈ (longRun t).flight[k]?,
    p.group = cpGroupName longRequest ∧ cpGroupName longRequest ≠ defaultGroup ∧
      untagGroup p.payload ≠ some (p.group, p.msg) ∧
      (longRun t).counterOn 1 defaultGroup = .long 0 ∧
      ((longRun t).exec (.deliver k)).counterOn 1 defaultGroup = .long 5 := by
  obtain ⟨t, p, hp, hgroup, hsrc, hdst⟩ := exists_mem_longRun
  obtain ⟨k, hk⟩ := mem_iff_getElem?.mp hp
  have huntag : untagGroup p.payload = some (defaultGroup, forged) := by
    rw [Tagged.payload, hgroup]
    exact untagGroup_longName p.msg
  have hmember : (longRun t).members 1 = (init 2).members 1 :=
    (members_ticks (by decide) t).trans (members_move_of_ne (by decide))
  refine ⟨t, k, p, hk, ?_, ?_, ?_, ?_, ?_⟩
  · rw [hgroup, cpGroupName_longRequest]
  · rw [cpGroupName_longRequest]
    exact longName_ne
  · rw [huntag, hgroup]
    intro heq
    exact longName_ne (congrArg Prod.fst (some.inj heq)).symm
  · rw [counterOn, group, hmember]
    decide +kernel
  · have hstep : ((longRun t).exec (.deliver k)).members 1 =
        (((init 2).members 1).onGroup defaultGroup (·.step 0 forged)).1 := by
      simp only [exec, hk, hdst, hsrc, members_move_self, hmember, CpState.step, huntag]
    rw [counterOn, group, hstep]
    decide +kernel

end CpNetwork

end BonsaiGrid.Server
