import BonsaiGrid.Server.Mediation
import BonsaiGrid.Server.Memcache
import BonsaiGrid.Server.Resp

/-!
# The commands of the text protocols

What the memcached and the RESP protocol do with a command that has been parsed.
-/

namespace BonsaiGrid.Server

open Store

variable {s : Shown} {map m : Str}

theorem maps_mcUpdate {R : Type} (h : m ≠ map) (key : Bytes) (f : Option Bytes → McAction × R) :
    (Shown.ops.mcUpdate s map key f).1.maps m = s.maps m := by
  dsimp only [Shown.ops]
  split
  · exact maps_setMap_of_ne h
  · exact maps_setMap_of_ne h
  · rfl

end BonsaiGrid.Server

namespace BonsaiGrid.Memcache

open Store Lines Server Utf8

theorem valid_mapName : Utf8.valid (ascii "memcache") = true := by decide

def mapName : Str := ⟨ascii "memcache", valid_mapName⟩

def maxValue : ℕ := 2 ^ 20

def pack (flags cas : ℕ) (data : Bytes) : Bytes :=
  LittleEndian.encode 4 flags ++ (LittleEndian.encode 8 cas ++ data)

def unpack (blob : Bytes) : Option (ℕ × ℕ × Bytes) :=
  if blob.length < 12 then none
  else some (LittleEndian.decode (blob.take 4), LittleEndian.decode ((blob.drop 4).take 8),
    blob.drop 12)

inductive Ttl
  | never
  | ms (m : ℕ)
  | past
deriving DecidableEq

def classifyExptime (exptime : ℤ) (nowUnix : ℕ) : Ttl :=
  if exptime = 0 then .never
  else if exptime < 0 then .past
  else if exptime ≤ 2592000 then .ms (exptime.toNat * 1000)
  else if exptime.toNat ≤ nowUnix then .past
  else .ms ((exptime.toNat - nowUnix) * 1000 % 2 ^ 64)

def Ttl.toMs : Ttl → ℕ
  | never => 0
  | ms m => m
  | past => 0

/-- The store after a command, the counter of the versions, the reply, and whether the connection is
closed. -/
structure Served (σ : Type) where
  store : σ
  cas : ℕ
  out : Bytes := []
  close : Bool := false

def reply (noreply : Bool) (line : String) : Bytes := if noreply then [] else ascii line

section Execute

variable {σ : Type} (ops : StoreOps σ)

def valueLines (withCas : Bool) (key : Bytes) : ℕ × ℕ × Bytes → Bytes
  | (flags, cas, data) =>
    ascii "VALUE " ++ key ++ ascii " " ++ Decimal.format flags ++ ascii " " ++
      Decimal.format data.length ++ (if withCas then ascii " " ++ Decimal.format cas else []) ++
      ascii "\r\n" ++ data ++ ascii "\r\n"

def getKeys (withCas : Bool) : σ → List Bytes → σ × Bytes
  | s, [] => (s, [])
  | s, key :: keys =>
    let r := ops.get s mapName key
    let rest := getKeys withCas r.1 keys
    (rest.1, ((r.2.bind unpack).elim [] (valueLines withCas key)) ++ rest.2)

/-- What a storage verb makes of the value that is there: it is replaced with the next version, or
removed if the new one has expired. -/
def storeAction (flags : ℕ) (data : Bytes) (ttl : Ttl) (cas : ℕ) : McAction × ℕ × String :=
  if ttl = .past then (.remove, cas, "STORED\r\n")
  else (.store (pack flags ((cas + 1) % 2 ^ 64) data) ttl.toMs, (cas + 1) % 2 ^ 64, "STORED\r\n")

def updateWith (op : StoreOp) (flags : ℕ) (data : Bytes) (ttl : Ttl) (expected cas : ℕ)
    (cur : Option Bytes) : McAction × ℕ × String :=
  match op with
  | .set => storeAction flags data ttl cas
  | .add =>
    if cur.isSome then (.keep, cas, "NOT_STORED\r\n") else storeAction flags data ttl cas
  | .replace =>
    if cur.isNone then (.keep, cas, "NOT_STORED\r\n") else storeAction flags data ttl cas
  | .cas =>
    match cur.bind unpack with
    | none => (.keep, cas, "NOT_FOUND\r\n")
    | some (_, found, _) =>
      if found ≠ expected then (.keep, cas, "EXISTS\r\n") else storeAction flags data ttl cas

def executeStore (s : σ) (cas : ℕ) (op : StoreOp) (key : Bytes) (flags : ℕ) (ttl : Ttl)
    (expected : ℕ) (data : Bytes) : σ × ℕ × String :=
  if maxValue < data.length then (s, cas, "SERVER_ERROR object too large for cache\r\n")
  else if op = .set then
    if ttl = .past then ((ops.remove s mapName key).1, cas, "STORED\r\n")
    else
      ((ops.putTtl s mapName key (pack flags ((cas + 1) % 2 ^ 64) data) ttl.toMs).1,
        (cas + 1) % 2 ^ 64, "STORED\r\n")
  else ops.mcUpdate s mapName key (updateWith op flags data ttl expected cas)

def touchWith (ttl : Ttl) (cur : Option Bytes) : McAction × String :=
  match cur with
  | none => (.keep, "NOT_FOUND\r\n")
  | some blob =>
    if ttl = .past then (.remove, "TOUCHED\r\n") else (.store blob ttl.toMs, "TOUCHED\r\n")

def execute (s : σ) (cas nowUnix : ℕ) (version : String) : Command → Served σ
  | .get keys withCas =>
    let r := getKeys ops withCas s keys
    { store := r.1, cas, out := r.2 ++ ascii "END\r\n" }
  | .store op key flags exptime expected data noreply =>
    let r := executeStore ops s cas op key flags (classifyExptime exptime nowUnix) expected data
    { store := r.1, cas := r.2.1, out := reply noreply r.2.2 }
  | .delete key noreply =>
    let r := ops.remove s mapName key
    { store := r.1, cas,
      out := reply noreply (if r.2.isSome then "DELETED\r\n" else "NOT_FOUND\r\n") }
  | .touch key exptime noreply =>
    let r := ops.mcUpdate s mapName key (touchWith (classifyExptime exptime nowUnix))
    { store := r.1, cas, out := reply noreply r.2 }
  | .flushAll noreply => { store := ops.clear s mapName, cas, out := reply noreply "OK\r\n" }
  | .version => { store := s, cas, out := ascii ("VERSION bonsaigrid-" ++ version ++ "\r\n") }
  | .verbosity noreply => { store := s, cas, out := reply noreply "OK\r\n" }
  | .quit => { store := s, cas, close := true }
  | .error => { store := s, cas, out := ascii "ERROR\r\n" }
  | .notImplemented => { store := s, cas, out := ascii "ERROR\r\n" }
  | .clientError msg => { store := s, cas, out := ascii ("CLIENT_ERROR " ++ msg ++ "\r\n") }

end Execute

/-! ## What a command changes -/

def Command.writes : Command → Bool
  | .store _ _ _ _ _ _ _ => true
  | .delete _ _ => true
  | .touch _ _ _ => true
  | .flushAll _ => true
  | _ => false

section Effect

variable {s : Shown} {m : Str} {cas nowUnix : ℕ} {version : String}

theorem fst_getKeys (withCas : Bool) (keys : List Bytes) :
    (getKeys Shown.ops withCas s keys).1 = s := by
  induction keys with
  | nil => rfl
  | cons key keys ih => exact ih

theorem store_execute_of_not_writes {c : Command} (h : c.writes = false) :
    (execute Shown.ops s cas nowUnix version c).store = s := by
  cases c with
  | get keys withCas => exact fst_getKeys withCas keys
  | store op key flags exptime expected data noreply | delete key noreply
  | touch key exptime noreply | flushAll noreply => cases h
  | _ => rfl

theorem maps_executeStore (h : m ≠ mapName) (op : StoreOp) (key : Bytes) (flags : ℕ) (ttl : Ttl)
    (expected : ℕ) (data : Bytes) :
    (executeStore Shown.ops s cas op key flags ttl expected data).1.maps m = s.maps m := by
  rw [executeStore]
  split
  · rfl
  · split
    · split
      · exact maps_setMap_of_ne h
      · exact maps_setMap_of_ne h
    · exact maps_mcUpdate h key _

theorem maps_execute (h : m ≠ mapName) (c : Command) :
    (execute Shown.ops s cas nowUnix version c).store.maps m = s.maps m := by
  cases c with
  | get keys withCas => exact congrArg (fun t => Shown.maps t m) (fst_getKeys withCas keys)
  | store op key flags exptime expected data noreply => exact maps_executeStore h op key flags _ _ _
  | delete key noreply => exact maps_setMap_of_ne h
  | touch key exptime noreply => exact maps_mcUpdate h key _
  | flushAll noreply => exact maps_setMap_of_ne h
  | _ => rfl

end Effect

end BonsaiGrid.Memcache

namespace BonsaiGrid.Resp

open Store Lines Server Utf8

theorem valid_mapName : Utf8.valid (ascii "redis") = true := by decide

def mapName : Str := ⟨ascii "redis", valid_mapName⟩

def bulk : Option Bytes → Bytes
  | some d => ascii "$" ++ Decimal.format d.length ++ ascii "\r\n" ++ d ++ ascii "\r\n"
  | none => ascii "$-1\r\n"

def integer (n : ℕ) : Bytes := ascii ":" ++ Decimal.format n ++ ascii "\r\n"

def simple (s : String) : Bytes := ascii ("+" ++ s ++ "\r\n")

def error (s : Bytes) : Bytes := ascii "-ERR " ++ s ++ ascii "\r\n"

structure SetOptions where
  ttlMs : ℕ := 0
  nx : Bool := false
  xx : Bool := false
deriving DecidableEq

def u64Arg (arg : Option Bytes) : ℕ :=
  (arg.bind fun word => Decimal.ofUtf8 (Decimal.parseUnsigned (2 ^ 64)) word).getD 0

def setOptions : SetOptions → List Bytes → Option SetOptions
  | o, [] => some o
  | o, word :: words =>
    if upper word = ascii "EX" then
      match words with
      | [] => some { o with ttlMs := 0 }
      | arg :: words => setOptions { o with ttlMs := u64Arg (some arg) * 1000 % 2 ^ 64 } words
    else if upper word = ascii "PX" then
      match words with
      | [] => some { o with ttlMs := 0 }
      | arg :: words => setOptions { o with ttlMs := u64Arg (some arg) } words
    else if upper word = ascii "NX" then setOptions { o with nx := true } words
    else if upper word = ascii "XX" then setOptions { o with xx := true } words
    else if upper word = ascii "KEEPTTL" then setOptions o words
    else none

section Execute

variable {σ : Type} (ops : StoreOps σ)

def setWith (o : SetOptions) (val : Bytes) (cur : Option Bytes) : McAction × Bool :=
  if (o.nx ∧ cur.isSome) ∨ (o.xx ∧ cur.isNone) then (.keep, false) else (.store val o.ttlMs, true)

def set (s : σ) : List Bytes → σ × Bytes
  | _ :: key :: val :: words =>
    match setOptions {} words with
    | none => (s, error (ascii "syntax error"))
    | some o =>
      if o.nx ∨ o.xx then
        let r := ops.mcUpdate s mapName key (setWith o val)
        (r.1, if r.2 then simple "OK" else bulk none)
      else ((ops.putTtl s mapName key val o.ttlMs).1, simple "OK")
  | _ => (s, error (ascii "wrong number of arguments for 'set'"))

def delKeys : σ → List Bytes → σ × ℕ
  | s, [] => (s, 0)
  | s, key :: keys =>
    let r := ops.remove s mapName key
    let rest := delKeys r.1 keys
    (rest.1, (if r.2.isSome then 1 else 0) + rest.2)

def existKeys : σ → List Bytes → σ × ℕ
  | s, [] => (s, 0)
  | s, key :: keys =>
    let r := ops.get s mapName key
    let rest := existKeys r.1 keys
    (rest.1, (if r.2.isSome then 1 else 0) + rest.2)

inductive Verb
  | ping
  | echo
  | get
  | set
  | del
  | present
  | dbsize
  | flush
  | ok
  | emptyArray
  | info
  | reset
  | quit
deriving DecidableEq

def Verb.names : List (Bytes × Verb) :=
  [(ascii "PING", .ping), (ascii "ECHO", .echo), (ascii "GET", .get), (ascii "SET", .set),
    (ascii "DEL", .del), (ascii "EXISTS", .present), (ascii "DBSIZE", .dbsize),
    (ascii "FLUSHDB", .flush), (ascii "FLUSHALL", .flush), (ascii "SELECT", .ok), (ascii "AUTH", .ok),
    (ascii "CONFIG", .emptyArray), (ascii "COMMAND", .emptyArray), (ascii "INFO", .info),
    (ascii "RESET", .reset), (ascii "QUIT", .quit)]

def Verb.read (word : Bytes) : Option Verb := Verb.names.lookup (upper word)

def execute (s : σ) : List Bytes → σ × Bytes × Bool
  | [] => (s, error (ascii "empty command"), false)
  | verb :: args =>
    match Verb.read verb with
    | some .ping =>
      match args with
      | [] => (s, simple "PONG", false)
      | m :: _ => (s, bulk (some m), false)
    | some .echo => (s, bulk args.head?, false)
    | some .get =>
      match args with
      | [] => (s, bulk none, false)
      | key :: _ =>
        let r := ops.get s mapName key
        (r.1, bulk r.2, false)
    | some .set =>
      let r := set ops s (verb :: args)
      (r.1, r.2, false)
    | some .del =>
      let r := delKeys ops s args
      (r.1, integer r.2, false)
    | some .present =>
      let r := existKeys ops s args
      (r.1, integer r.2, false)
    | some .dbsize => (s, integer (ops.size s mapName), false)
    | some .flush => (ops.clear s mapName, simple "OK", false)
    | some .ok => (s, simple "OK", false)
    | some .emptyArray => (s, ascii "*0\r\n", false)
    | some .info => (s, bulk (some (ascii "# Server\r\nserver:bonsaigrid\r\n")), false)
    | some .reset => (s, simple "RESET", false)
    | some .quit => (s, simple "OK", true)
    | none =>
      (s, error (ascii "unknown command '" ++ (Str.fromUtf8Lossy verb).bytes ++ ascii "'"), false)

def handle [Allocator] (s : σ) (cmd : Bytes) : Except Fault (σ × Bytes × Bool) := do
  match ← parse cmd with
  | some args => return execute ops s args
  | none => return (s, ascii "-ERR protocol error\r\n", false)

end Execute

/-! ## What a command changes -/

def writes (args : List Bytes) : Bool :=
  match args.head?.bind Verb.read with
  | some .set => true
  | some .del => true
  | some .flush => true
  | _ => false

section Effect

variable {s : Shown} {m : Str}

theorem fst_existKeys (keys : List Bytes) : (existKeys Shown.ops s keys).1 = s := by
  induction keys with
  | nil => rfl
  | cons key keys ih => exact ih

theorem store_execute_of_not_writes {args : List Bytes} (h : writes args = false) :
    (execute Shown.ops s args).1 = s := by
  cases args with
  | nil => rfl
  | cons verb args =>
    rw [writes, List.head?_cons, Option.bind_some] at h
    cases hverb : Verb.read verb with
    | none => simp only [execute, hverb]
    | some v =>
      rw [hverb] at h
      simp only [execute, hverb]
      cases v with
      | ping =>
        cases args with
        | nil | cons m args => rfl
      | get =>
        cases args with
        | nil | cons key args => rfl
      | set | del | flush => cases h
      | present => exact fst_existKeys args
      | _ => rfl

theorem maps_delKeys (h : m ≠ mapName) (keys : List Bytes) :
    (delKeys Shown.ops s keys).1.maps m = s.maps m := by
  induction keys generalizing s with
  | nil => rfl
  | cons key keys ih => exact ih.trans (maps_setMap_of_ne h)

theorem maps_set (h : m ≠ mapName) (args : List Bytes) :
    (set Shown.ops s args).1.maps m = s.maps m := by
  rw [set.eq_def]
  split
  · split
    · rfl
    · split
      · exact maps_mcUpdate h _ _
      · exact maps_setMap_of_ne h
  · rfl

theorem maps_execute (h : m ≠ mapName) (args : List Bytes) :
    (execute Shown.ops s args).1.maps m = s.maps m := by
  by_cases hwrites : writes args = false
  · rw [store_execute_of_not_writes hwrites]
  · cases args with
    | nil => rfl
    | cons verb args =>
      rw [writes, List.head?_cons, Option.bind_some] at hwrites
      cases hverb : Verb.read verb with
      | none =>
        rw [hverb] at hwrites
        exact absurd rfl hwrites
      | some v =>
        rw [hverb] at hwrites
        simp only [execute, hverb]
        cases v with
        | set => exact maps_set h (verb :: args)
        | del => exact maps_delKeys h args
        | flush => exact maps_setMap_of_ne h
        | _ => exact absurd rfl hwrites

end Effect

end BonsaiGrid.Resp
