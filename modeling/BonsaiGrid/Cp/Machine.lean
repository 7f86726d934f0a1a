import BonsaiGrid.Cp.Objects

/-!
# Sessions, locks and the CP state machine

The session registry, `FencedLock`, and the machine that dispatches a committed command to the
object it names.
-/

namespace BonsaiGrid.Cp

open List

/-! ## FencedLock -/

inductive FlOp where
  | lock (session thread : Int64)
  | tryLock (session thread : Int64)
  | unlock (session thread : Int64)
deriving DecidableEq, Repr

namespace FencedLock

def owner : FlOp → Int64 × Int64
  | .lock session thread => (session, thread)
  | .tryLock session thread => (session, thread)
  | .unlock session thread => (session, thread)

def encode (name : Str) (op : FlOp) : Bytes :=
  let tag : UInt8 :=
    match op with
    | .lock _ _ => 0
    | .tryLock _ _ => 1
    | .unlock _ _ => 2
  [tag] ++ putI64 (owner op).1 ++ putI64 (owner op).2 ++ name.bytes

def decode (body : Bytes) : Option (Str × FlOp) :=
  if body.length < 17 then none
  else do
    let tag := body.getD 0 0
    let session := i64 ((body.drop 1).take 8)
    let thread := i64 ((body.drop 9).take 8)
    let op ←
      match tag with
      | 0 => some (FlOp.lock session thread)
      | 1 => some (.tryLock session thread)
      | 2 => some (.unlock session thread)
      | _ => none
    let name ← Str.fromUtf8 (body.drop 17)
    some (name, op)

end FencedLock

/-- Who holds a lock, how often, and the token of the first acquisition. -/
structure LockState where
  fence : Int64
  session : Int64
  thread : Int64
  count : Int32
deriving DecidableEq, Repr

structure FencedLockSm where
  locks : Dict Str LockState := ∅
  nextFence : Int64 := 0

namespace FencedLockSm

variable (sm : FencedLockSm)

def acquire (name : Str) (session thread : Int64) : FencedLockSm × Int64 :=
  let fresh :=
    ({ sm with
      nextFence := sm.nextFence + 1
      locks := sm.locks.insert name
        { fence := sm.nextFence + 1, session := session, thread := thread, count := 1 } },
      sm.nextFence + 1)
  match sm.locks.lookup name with
  | some l =>
    if 0 < l.count then
      if l.session = session ∧ l.thread = thread then
        ({ sm with locks := sm.locks.insert name { l with count := l.count + 1 } }, l.fence)
      else (sm, 0)
    else fresh
  | none => fresh

def release (name : Str) (session thread : Int64) : FencedLockSm × Bool :=
  match sm.locks.lookup name with
  | some l =>
    if 0 < l.count ∧ l.session = session ∧ l.thread = thread then
      if l.count - 1 = 0 then ({ sm with locks := sm.locks.erase name }, true)
      else ({ sm with locks := sm.locks.insert name { l with count := l.count - 1 } }, true)
    else (sm, false)
  | none => (sm, false)

def releaseSession (session : Int64) : FencedLockSm :=
  { sm with locks := Dict.retain (fun _ l => l.session ≠ session) sm.locks }

def apply (body : Bytes) : FencedLockSm × CpReply :=
  match FencedLock.decode body with
  | none => (sm, .nil)
  | some (name, .lock session thread) =>
    let r := sm.acquire name session thread
    (r.1, .long r.2)
  | some (name, .tryLock session thread) =>
    let r := sm.acquire name session thread
    (r.1, .long r.2)
  | some (name, .unlock session thread) =>
    let r := sm.release name session thread
    (r.1, .bool r.2)

def HeldBy (name : Str) (session : Int64) : Prop :=
  ∃ l, sm.locks.lookup name = some l ∧ l.session = session ∧ 0 < l.count

/-- The state of `name` names the session, whatever the count. -/
def Names (name : Str) (session : Int64) : Prop :=
  ∃ l, sm.locks.lookup name = some l ∧ l.session = session

theorem HeldBy.names {sm : FencedLockSm} {name : Str} {session : Int64}
    (h : sm.HeldBy name session) : sm.Names name session := by
  obtain ⟨l, hl, hs, -⟩ := h
  exact ⟨l, hl, hs⟩

section Effects

variable {sm : FencedLockSm} {name name' : Str} {session session' thread : Int64}

theorem names_insert {l : LockState} {fence : Int64}
    (h : Names ⟨sm.locks.insert name l, fence⟩ name' session) :
    sm.Names name' session ∨ name' = name ∧ session = l.session := by
  obtain ⟨l', hl, rfl⟩ := h
  rcases Dict.lookup_insert_eq_some hl with ⟨hname, rfl⟩ | hold
  · exact .inr ⟨hname, rfl⟩
  · exact .inl ⟨l', hold, rfl⟩

theorem names_acquire (h : (sm.acquire name session thread).1.Names name' session') :
    sm.Names name' session' ∨ name' = name ∧ session' = session := by
  simp only [acquire] at h
  split at h
  · split at h
    · split at h
      · rename_i howner
        rcases names_insert h with hold | ⟨hname, hs⟩
        · exact .inl hold
        · exact .inr ⟨hname, hs.trans howner.1⟩
      · exact .inl h
    · exact names_insert h
  · exact names_insert h

theorem names_release (h : (sm.release name session thread).1.Names name' session') :
    sm.Names name' session' := by
  simp only [release] at h
  split at h
  · rename_i l hl
    split at h
    · split at h
      · obtain ⟨l', hl', rfl⟩ := h
        exact ⟨l', (Dict.lookup_of_lookup_erase hl').2, rfl⟩
      · rcases names_insert h with hold | ⟨rfl, rfl⟩
        · exact hold
        · exact ⟨l, hl, rfl⟩
    · exact h
  · exact h

theorem names_releaseSession (h : (sm.releaseSession session).Names name' session') :
    sm.Names name' session' ∧ session' ≠ session := by
  obtain ⟨l, hl, rfl⟩ := h
  obtain ⟨hold, hne⟩ := Dict.lookup_retain.1 hl
  exact ⟨⟨l, hold, rfl⟩, by simpa using hne⟩

theorem names_releaseSessions {ids : List Int64}
    (h : (ids.foldl releaseSession sm).Names name' session') :
    sm.Names name' session' ∧ session' ∉ ids := by
  induction ids generalizing sm with
  | nil => exact ⟨h, not_mem_nil⟩
  | cons id ids ih =>
    obtain ⟨hfirst, hrest⟩ := ih h
    obtain ⟨hold, hne⟩ := names_releaseSession hfirst
    exact ⟨hold, not_mem_cons_of_ne_of_not_mem hne hrest⟩

end Effects

end FencedLockSm

/-! ## Sessions -/

inductive SessOp where
  | create
  | heartbeat (id : Int64)
  | close (id : Int64)
  | tick
  | generateThreadId
deriving DecidableEq, Repr

namespace Session

def ttlTicks : Int64 := 30

def encode : SessOp → Bytes
  | .create => [0]
  | .heartbeat id => [1] ++ putI64 id
  | .close id => [2] ++ putI64 id
  | .tick => [3]
  | .generateThreadId => [4]

def decode (body : Bytes) : Option SessOp := do
  let tag ← body.head?
  match tag with
  | 0 => some .create
  | 1 => (getRange body 1 8).map fun id => .heartbeat (i64 id)
  | 2 => (getRange body 1 8).map fun id => .close (i64 id)
  | 3 => some .tick
  | 4 => some .generateThreadId
  | _ => none

end Session

/-- The deadlines of the live sessions, the logical clock, and the last session
and thread id handed out. -/
structure SessionSm where
  sessions : Dict Int64 Int64 := ∅
  clock : Int64 := 0
  nextId : Int64 := 0
  nextThreadId : Int64 := 0

namespace SessionSm

variable (sm : SessionSm)

def create : SessionSm × Int64 :=
  let id := sm.nextId + 1
  ({ sm with nextId := id, sessions := sm.sessions.insert id (sm.clock + Session.ttlTicks) }, id)

def heartbeat (id : Int64) : SessionSm × Bool :=
  if id ∈ sm.sessions then
    ({ sm with sessions := sm.sessions.insert id (sm.clock + Session.ttlTicks) }, true)
  else (sm, false)

def close (id : Int64) : SessionSm × Bool :=
  ({ sm with sessions := sm.sessions.erase id }, id ∈ sm.sessions)

def tick : SessionSm × List Int64 :=
  let now := sm.clock + 1
  let expired := (sm.sessions.entries.filter fun e => e.2 ≤ now).map Sigma.fst
  ({ sm with clock := now, sessions := expired.foldl (fun s id => s.erase id) sm.sessions },
    expired)

def generateThreadId : SessionSm × Int64 :=
  ({ sm with nextThreadId := sm.nextThreadId + 1 }, sm.nextThreadId + 1)

def isActive (id : Int64) : Bool := id ∈ sm.sessions

theorem mem_foldl_erase {ids : List Int64} {d : Dict Int64 Int64} {id : Int64} :
    id ∈ ids.foldl (fun s id => s.erase id) d ↔ id ∈ d ∧ id ∉ ids := by
  induction ids generalizing d with
  | nil => simp
  | cons x ids ih =>
    rw [foldl_cons, ih, AList.mem_erase, mem_cons]
    tauto

section Ends

variable {sm : SessionSm} {id id' : Int64}

theorem isActive_create (h : sm.isActive id = true) : sm.create.1.isActive id = true := by
  simp only [isActive, create, decide_eq_true_eq, AList.mem_insert] at h ⊢
  exact .inr h

theorem isActive_heartbeat (h : sm.isActive id = true) :
    (sm.heartbeat id').1.isActive id = true := by
  unfold heartbeat
  split
  · simp only [isActive, decide_eq_true_eq, AList.mem_insert] at h ⊢
    exact .inr h
  · exact h

theorem eq_of_isActive_close (h : sm.isActive id = true)
    (hend : (sm.close id').1.isActive id = false) : id = id' := by
  by_contra hne
  simp only [isActive, close, decide_eq_true_eq, decide_eq_false_iff_not, AList.mem_erase] at h hend
  exact hend ⟨hne, h⟩

theorem mem_of_isActive_tick (h : sm.isActive id = true) (hend : sm.tick.1.isActive id = false) :
    id ∈ sm.tick.2 := by
  simp only [isActive, decide_eq_true_eq, decide_eq_false_iff_not] at h hend
  by_contra hnot
  exact hend (mem_foldl_erase.2 ⟨h, hnot⟩)

end Ends

end SessionSm

/-! ## The state machine -/

structure CpSm where
  atomicLong : AtomicLongSm := {}
  atomicRef : AtomicReferenceSm := {}
  countdownLatch : CountDownLatchSm := {}
  semaphore : SemaphoreSm := {}
  fencedLock : FencedLockSm := {}
  sessions : SessionSm := {}
  cpMap : CpMapSm := {}

def alCommand (name : Str) (op : AlOp) : Bytes := 0 :: AtomicLong.encode name op

def flCommand (name : Str) (op : FlOp) : Bytes := 4 :: FencedLock.encode name op

def sessCommand (op : SessOp) : Bytes := 5 :: Session.encode op

namespace CpSm

def applySession (sm : CpSm) (body : Bytes) : CpSm × CpReply :=
  match Session.decode body with
  | none => (sm, .nil)
  | some .create =>
    let r := sm.sessions.create
    ({ sm with sessions := r.1 }, .long r.2)
  | some (.heartbeat id) => ({ sm with sessions := (sm.sessions.heartbeat id).1 }, .nil)
  | some (.close id) =>
    let r := sm.sessions.close id
    ({ sm with sessions := r.1, fencedLock := sm.fencedLock.releaseSession id }, .bool r.2)
  | some .tick =>
    let r := sm.sessions.tick
    ({ sm with
      sessions := r.1
      fencedLock := r.2.foldl FencedLockSm.releaseSession sm.fencedLock }, .nil)
  | some .generateThreadId =>
    let r := sm.sessions.generateThreadId
    ({ sm with sessions := r.1 }, .long r.2)

def apply (sm : CpSm) (command : Bytes) : CpSm × CpReply :=
  match command with
  | [] => (sm, .nil)
  | obj :: body =>
    match obj with
    | 0 =>
      let r := sm.atomicLong.apply body
      ({ sm with atomicLong := r.1 },
        match r.2 with
        | .long v => .long v
        | .bool b => .bool b
        | .none => .nil)
    | 1 =>
      let r := sm.atomicRef.apply body
      ({ sm with atomicRef := r.1 }, r.2)
    | 2 =>
      let r := sm.countdownLatch.apply body
      ({ sm with countdownLatch := r.1 }, r.2)
    | 3 =>
      let r := sm.semaphore.apply body
      ({ sm with semaphore := r.1 }, r.2)
    | 4 =>
      let r := sm.fencedLock.apply body
      ({ sm with fencedLock := r.1 }, r.2)
    | 5 => sm.applySession body
    | 6 =>
      let r := sm.cpMap.apply body
      ({ sm with cpMap := r.1 }, r.2)
    | _ => (sm, .nil)

def run (sm : CpSm) (commands : List Bytes) : CpSm :=
  commands.foldl (fun sm c => (sm.apply c).1) sm

def lockRequest : Bytes → Option (Str × Int64)
  | 4 :: body =>
    match FencedLock.decode body with
    | some (name, .lock session _) => some (name, session)
    | some (name, .tryLock session _) => some (name, session)
    | _ => none
  | _ => none

section Ends

variable {sm : CpSm} {c : Bytes} {name : Str} {session : Int64} {body : Bytes}

theorem names_applySession (h : (sm.applySession body).1.fencedLock.Names name session) :
    sm.fencedLock.Names name session := by
  unfold applySession at h
  split at h
  case h_4 => exact (FencedLockSm.names_releaseSession h).1
  case h_5 => exact (FencedLockSm.names_releaseSessions h).1
  all_goals exact h

theorem names_applyLock (h : (sm.fencedLock.apply body).1.Names name session) :
    sm.fencedLock.Names name session ∨ lockRequest (4 :: body) = some (name, session) := by
  unfold FencedLockSm.apply at h
  simp only [lockRequest]
  split at h
  case h_1 => exact .inl h
  case h_4 => exact .inl (FencedLockSm.names_release h)
  all_goals
    rename_i hdecode
    rw [hdecode]
    rcases FencedLockSm.names_acquire h with hold | ⟨rfl, rfl⟩
    · exact .inl hold
    · exact .inr rfl

theorem names_apply (h : (sm.apply c).1.fencedLock.Names name session) :
    sm.fencedLock.Names name session ∨ lockRequest c = some (name, session) := by
  unfold apply at h
  split at h
  · exact .inl h
  · split at h
    case h_5 => exact names_applyLock h
    case h_6 => exact .inl (names_applySession h)
    all_goals exact .inl h

theorem sessions_apply :
    (sm.apply c).1.sessions = sm.sessions ∨
      ∃ body, sm.apply c = sm.applySession body := by
  unfold apply
  split
  · exact .inl rfl
  · rename_i obj body
    split
    case h_6 => exact .inr ⟨body, rfl⟩
    all_goals exact .inl rfl

theorem not_names_of_end_applySession (hactive : sm.sessions.isActive session = true)
    (hend : (sm.applySession body).1.sessions.isActive session = false) :
    ¬ (sm.applySession body).1.fencedLock.Names name session := by
  intro h
  unfold applySession at hend h
  cases hop : Session.decode body with
  | none =>
    simp only [hop, hactive] at hend
    cases hend
  | some op =>
    cases op with
    | create =>
      simp only [hop, SessionSm.isActive_create hactive] at hend
      cases hend
    | heartbeat id =>
      simp only [hop, SessionSm.isActive_heartbeat hactive] at hend
      cases hend
    | close id =>
      simp only [hop] at hend h
      exact (FencedLockSm.names_releaseSession h).2
        (SessionSm.eq_of_isActive_close hactive hend)
    | tick =>
      simp only [hop] at hend h
      exact (FencedLockSm.names_releaseSessions h).2
        (SessionSm.mem_of_isActive_tick hactive hend)
    | generateThreadId =>
      simp only [hop] at hend
      rw [show sm.sessions.generateThreadId.1.isActive session = true from hactive] at hend
      cases hend

theorem not_names_of_end (hactive : sm.sessions.isActive session = true)
    (hend : (sm.apply c).1.sessions.isActive session = false) :
    ¬ (sm.apply c).1.fencedLock.Names name session := by
  rcases @sessions_apply sm c with hsame | ⟨body, happly⟩
  · rw [hsame, hactive] at hend
    cases hend
  · rw [happly] at hend ⊢
    exact not_names_of_end_applySession hactive hend

theorem names_run {commands : List Bytes}
    (h : (sm.run commands).fencedLock.Names name session)
    (hnot : ¬ sm.fencedLock.Names name session) :
    ∃ d ∈ commands, lockRequest d = some (name, session) := by
  induction commands generalizing sm with
  | nil => exact absurd h hnot
  | cons c cs ih =>
    by_cases hfirst : (sm.apply c).1.fencedLock.Names name session
    · rcases names_apply hfirst with hold | hreq
      · exact absurd hold hnot
      · exact ⟨c, mem_cons_self, hreq⟩
    · obtain ⟨d, hd, hreq⟩ := ih h hfirst
      exact ⟨d, mem_cons_of_mem _ hd, hreq⟩

end Ends

end CpSm

/-- Whatever a session holds after its end, it took by a `Lock` or `TryLock` that
was applied after its end. -/
theorem locks_of_ended_session (before : List Bytes) (c : Bytes) (after : List Bytes) (id : Int64)
    (name : Str) (hactive : (CpSm.run {} before).sessions.isActive id = true)
    (hend : (CpSm.run {} (before ++ [c])).sessions.isActive id = false)
    (hheld : (CpSm.run {} (before ++ [c] ++ after)).fencedLock.HeldBy name id) :
    ∃ d ∈ after, CpSm.lockRequest d = some (name, id) := by
  have hlast : CpSm.run {} (before ++ [c]) = ((CpSm.run {} before).apply c).1 := by
    simp [CpSm.run]
  have hall : CpSm.run {} (before ++ [c] ++ after) = (CpSm.run {} (before ++ [c])).run after := by
    simp [CpSm.run]
  rw [hlast] at hend
  rw [hall, hlast] at hheld
  exact CpSm.names_run hheld.names (CpSm.not_names_of_end hactive hend)

def lockName : Str := ⟨[108, 107], by decide +kernel⟩

def closedSession : List Bytes :=
  [sessCommand .create, flCommand lockName (.lock 1 7), sessCommand (.close 1)]

set_option maxRecDepth 100000 in
/-- A session that ends can take a lock again, by a command applied later. -/
theorem locks_of_ended_session_relock :
    (CpSm.run {} (closedSession ++ [flCommand lockName (.lock 1 7)])).fencedLock.HeldBy
      lockName 1 ∧
    ∃ d ∈ [flCommand lockName (.lock 1 7)], CpSm.lockRequest d = some (lockName, 1) := by
  have hheld : (CpSm.run {} (closedSession ++ [flCommand lockName (.lock 1 7)])).fencedLock.HeldBy
      lockName 1 := ⟨⟨2, 1, 7, 1⟩, by decide +kernel, rfl, by decide⟩
  exact ⟨hheld, locks_of_ended_session (closedSession.take 2) (sessCommand (.close 1)) _ 1 lockName
    (by decide +kernel) (by decide +kernel) hheld⟩

set_option maxRecDepth 100000 in
/-- The session is closed, and it holds a lock in a later state. -/
theorem ended_session_holds_lock :
    (CpSm.run {} (closedSession.take 2)).sessions.isActive 1 = true ∧
      (CpSm.run {} closedSession).sessions.isActive 1 = false ∧
      (CpSm.run {} (closedSession ++ [flCommand lockName (.lock 1 7)])).fencedLock.HeldBy
        lockName 1 :=
  ⟨by decide +kernel, by decide +kernel, ⟨2, 1, 7, 1⟩, by decide +kernel, rfl, by decide⟩

end BonsaiGrid.Cp
