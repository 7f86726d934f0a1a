import BonsaiGrid.Protocol.Frame
import BonsaiGrid.Server.Memcache
import BonsaiGrid.Server.Resp

/-!
# What a connection hands on

The reactor detects the protocol of a connection from the first three bytes it has received and
then, with every receive, cuts as many commands off its buffer as there are and hands them to the
handler of the protocol.
-/

namespace BonsaiGrid.Reactor

open Fault Chunks Resp List

inductive Mode
  | binary
  | http
  | memcache
  | resp
deriving DecidableEq

def blankLine : Bytes → Option ℕ
  | a :: b :: c :: d :: rest =>
    if a = 13 ∧ b = 10 ∧ c = 13 ∧ d = 10 then some 0
    else (blankLine (b :: c :: d :: rest)).map (· + 1)
  | _ => none

def frameOf : Mode → Bytes → Except Fault (Option ℕ)
  | .binary => Protocol.messageLen
  | .http => fun acc => .ok ((blankLine acc).map (· + 4))
  | .memcache => Memcache.frame
  | .resp => frame

def detect (acc : Bytes) : Mode :=
  if acc.take 3 = [67, 80, 50] then .binary
  else if acc.head? = some 42 then .resp
  else if acc.head?.any fun b => 65 ≤ b && b ≤ 90 then .http
  else .memcache

def Mode.skip : Mode → ℕ
  | binary => 3
  | http | memcache | resp => 0

/-- A connection: its mode once it is known, and its inbound side. -/
structure Conn where
  mode : Option Mode := none
  inbound : Inbound UInt8 := {}
deriving DecidableEq

/-- `on_recv`, as far as the inbound side goes. -/
def onRecv (stop : Mode → Bytes → Bool) (c : Conn) (chunk : Bytes) : Except Fault Conn :=
  match c.mode with
  | some m => do
      let inbound ← receive (frameOf m) (stop m) c.inbound chunk
      return { c with inbound }
  | none =>
    let acc := c.inbound.acc ++ chunk
    if acc.length < 3 then .ok { c with inbound := { c.inbound with acc } }
    else do
      let m := detect acc
      let inbound ← receive (frameOf m) (stop m) {} (acc.drop m.skip)
      return { mode := some m, inbound }

def arrive (stop : Mode → Bytes → Bool) : Conn → List Bytes → Except Fault Conn
  | c, [] => .ok c
  | c, chunk :: chunks => onRecv stop c chunk >>= fun c => arrive stop c chunks

section Detection

variable {acc : Bytes}

theorem detect_append (h : 3 ≤ acc.length) (q : Bytes) : detect (acc ++ q) = detect acc := by
  have hhead : (acc ++ q).head? = acc.head? := by
    cases acc with
    | nil => exact absurd h (by decide)
    | cons b acc => rfl
  rw [detect, detect, hhead, take_append_of_le_length h]

theorem skip_le (m : Mode) : m.skip ≤ 3 := by
  cases m
  all_goals decide

variable (stop : Mode → Bytes → Bool)

theorem arrive_mode (m : Mode) (c : Inbound UInt8)
    (chunks : List Bytes) :
    arrive stop ⟨some m, c⟩ chunks =
      feed (frameOf m) (stop m) c chunks >>= fun c => .ok ⟨some m, c⟩ := by
  induction chunks generalizing c with
  | nil => rfl
  | cons chunk chunks ih =>
    rw [arrive, onRecv, feed]
    dsimp only
    cases receive (frameOf m) (stop m) c chunk with
    | error e => rfl
    | ok c' => exact ih c'

theorem arrive_unknown (acc : Bytes) (chunks : List Bytes)
    (hacc : acc.length < 3)
    (hlen : 3 ≤ (acc ++ chunks.flatten).length) :
    ∃ chunks', chunks'.flatten =
        (acc ++ chunks.flatten).drop (detect (acc ++ chunks.flatten)).skip ∧
      arrive stop ⟨none, { acc := acc }⟩ chunks =
        arrive stop ⟨some (detect (acc ++ chunks.flatten)), {}⟩ chunks' := by
  induction chunks generalizing acc with
  | nil =>
    rw [flatten_nil, append_nil] at hlen
    omega
  | cons chunk chunks ih =>
    rw [flatten_cons, ← append_assoc] at hlen ⊢
    by_cases hshort : (acc ++ chunk).length < 3
    · obtain ⟨chunks', hflat, heq⟩ := ih _ hshort hlen
      refine ⟨chunks', hflat, ?_⟩
      rw [← heq, arrive, onRecv]
      rw [if_pos hshort, ok_bind]
    · have hthree := Nat.not_lt.mp hshort
      have hskip := skip_le (detect (acc ++ chunk))
      rw [detect_append hthree]
      refine ⟨(acc ++ chunk).drop (detect (acc ++ chunk)).skip :: chunks, ?_, ?_⟩
      · exact (drop_append_of_le_length (Nat.le_trans hskip hthree)).symm
      · rw [arrive, arrive, onRecv, onRecv]
        rw [if_neg hshort]

theorem arrive_short (chunks : List Bytes) (hlen : (acc ++ chunks.flatten).length < 3) :
    arrive stop ⟨none, { acc := acc }⟩ chunks =
      .ok ⟨none, { acc := acc ++ chunks.flatten }⟩ := by
  induction chunks generalizing acc with
  | nil => rw [flatten_nil, append_nil]; rfl
  | cons chunk chunks ih =>
    rw [flatten_cons, ← append_assoc] at hlen ⊢
    have hshort : (acc ++ chunk).length < 3 := by
      rw [length_append] at hlen
      omega
    rw [arrive, onRecv]
    rw [if_pos hshort, ok_bind, ih hlen]

end Detection

def modeOf (s : Bytes) : Option Mode := if s.length < 3 then none else some (detect s)

variable {chunks : List Bytes}

section Arrival

variable {stop : Mode → Bytes → Bool} {s : Bytes}

theorem arrive_of_short (h : modeOf s = none) (hchunks : chunks.flatten = s) :
    arrive stop {} chunks = .ok ⟨none, { acc := s }⟩ := by
  have hlen : s.length < 3 := by
    by_contra hlen
    rw [modeOf, if_neg hlen] at h
    cases h
  subst hchunks
  exact arrive_short stop chunks hlen

/-- **The chunks do not matter.** An orderly stream of a protocol whose rule is stable is handed
on in the same commands, however it arrives. -/
theorem arrive_eq {m : Mode} (hm : modeOf s = some m) {cut : Bytes → Option ℕ}
    {Good : Bytes → Prop} (hc : Cutting cut) (ha : Agrees (frameOf m) cut Good)
    (ho : Orderly cut (stop m) Good (s.drop m.skip)) {cmds : List Bytes} {closed : Bool}
    {rest : Bytes} (hs : Cuts cut (stop m) (s.drop m.skip) cmds closed rest)
    (hchunks : chunks.flatten = s) :
    ∃ acc, arrive stop {} chunks =
      .ok ⟨some m, { handed := cmds, acc := acc, closed := closed }⟩ := by
  have hlen : ¬ s.length < 3 := by
    intro hlen
    rw [modeOf, if_pos hlen] at hm
    cases hm
  rw [modeOf, if_neg hlen] at hm
  cases hm
  subst hchunks
  obtain ⟨chunks', hflat, heq⟩ := arrive_unknown stop [] chunks (Nat.zero_lt_succ 2)
    (Nat.not_lt.mp hlen)
  obtain ⟨acc, hfeed⟩ := feed_chunks hc ha hs ho hflat
  refine ⟨acc, heq.trans ?_⟩
  rw [arrive_mode]
  refine Eq.trans (congrArg (· >>= _) hfeed) ?_
  rfl

end Arrival

/-! ## The memcached protocol -/

/-- A stream that arrives at one go is received at one go. -/
theorem returns_receive {stop : Mode → Bytes → Bool} {s : Bytes} {m : Mode} (hm : modeOf s = some m)
    (h : Returns (arrive stop {} [s])) :
    Returns (receive (frameOf m) (stop m) {} (s.drop m.skip)) := by
  have hlen : ¬ s.length < 3 := by
    intro hlen
    rw [modeOf, if_pos hlen] at hm
    cases hm
  rw [modeOf, if_neg hlen] at hm
  cases hm
  obtain ⟨c, hc⟩ := h
  obtain ⟨c', hc', -⟩ := bind_eq_ok.1 hc
  rw [onRecv] at hc'
  dsimp only at hc'
  rw [nil_append, if_neg hlen] at hc'
  obtain ⟨inbound, hinbound, -⟩ := bind_eq_ok.1 hc'
  exact ⟨inbound, hinbound⟩

theorem orderly_of_short {s : Bytes} (h : s.length < 3) (stop : Bytes → Bool) :
    Orderly Memcache.commandLen stop Memcache.Bounded s := by
  -- two bytes hold one line without words at most, and nothing behind it
  have hbounded : ∀ t : Bytes, t.length < 3 → Memcache.Bounded t := by
    intro t ht eol bytes heol hbytes
    have hle := Lines.crlf_le heol
    rw [show eol = 0 by omega] at hbytes
    cases hbytes
  intro t ht
  refine hbounded t (lt_of_le_of_lt ?_ h)
  induction ht with
  | start => exact Nat.le_refl _
  | next _ _ _ ih => exact le_trans (by rw [length_drop]; omega) ih

/-- **Memcached framing makes progress and does not depend on the chunks.** `frame` returns, and
what it finds is not empty, lies in the buffer and stays when more bytes arrive, exactly if the line
at the front announces no block whose end leaves the range of `usize`. A stream is handed to `parse`
in the same commands for every way of splitting it into receives, with an end to the loop of each
receive and to `parse` on every command, exactly if this is so wherever a command starts. -/
theorem memcache_chunks (stop : Mode → Bytes → Bool) (s : Bytes) :
    (∀ acc, (∃ r, Memcache.frame acc = .ok r ∧ ∀ n, r = some n →
      0 < n ∧ n ≤ acc.length ∧ ∀ q, Memcache.frame (acc ++ q) = .ok (some n)) ↔
        Memcache.Bounded acc) ∧
    (modeOf s = none ∨ modeOf s = some .memcache →
      ((∃ cmds, (∀ cmd ∈ cmds, Returns (Memcache.parse cmd)) ∧
        ∀ chunks : List Bytes, chunks.flatten = s →
          ∃ c, arrive stop {} chunks = .ok c ∧ c.inbound.handed = cmds) ↔
        Orderly Memcache.commandLen (stop .memcache) Memcache.Bounded s)) := by
  constructor
  · intro acc
    constructor
    · rintro ⟨r, hr, -⟩
      exact Memcache.frame_returns_iff.1 ⟨r, hr⟩
    · intro hb
      refine ⟨_, Memcache.frame_eq hb, fun n hn => ?_⟩
      obtain ⟨eol, heol, -⟩ := Memcache.of_commandLen hn
      have hcut := Memcache.cutting_commandLen
      refine ⟨hcut.pos hn, hcut.le hn, fun q => ?_⟩
      rw [Memcache.frame_eq (hb.append heol q), hcut.stable hn q]
  · intro hmode
    rcases hmode with hnone | hmem
    · have hlen : s.length < 3 := by
        by_contra hlen
        rw [modeOf, if_neg hlen] at hnone
        cases hnone
      refine iff_of_true ⟨[], by simp, fun chunks hchunks => ?_⟩ (orderly_of_short hlen _)
      exact ⟨_, arrive_of_short hnone hchunks, rfl⟩
    · constructor
      · rintro ⟨cmds, -, harrive⟩
        obtain ⟨c, hc, -⟩ := harrive [s] (by simp)
        refine orderly_of_receive Memcache.cutting_commandLen (fun {acc r} hr => ?_)
          Memcache.frame_returns_iff.1 (returns_receive hmem ⟨c, hc⟩)
        rw [show Memcache.frame acc = _ from
          Memcache.frame_eq (Memcache.frame_returns_iff.1 ⟨r, hr⟩)] at hr
        exact (Except.ok.inj hr).symm
      · intro ho
        obtain ⟨cmds, closed, rest, hs⟩ :=
          Memcache.cutting_commandLen.exists_cuts (stop .memcache) s
        refine ⟨cmds, fun cmd hcmd => ?_, fun chunks hchunks => ?_⟩
        · obtain ⟨t, n, hb, hn, rfl⟩ := hs.of_mem hcmd
          exact Memcache.parse_returns (ho t hb) hn
        · obtain ⟨acc, harrive⟩ :=
            arrive_eq hmem Memcache.cutting_commandLen Memcache.agrees_frame ho hs hchunks
          exact ⟨_, harrive, rfl⟩

/-- `set a 0 0 2` with its block, and `get a`. -/
def setGet : Bytes :=
  [115, 101, 116, 32, 97, 32, 48, 32, 48, 32, 50, 13, 10, 104, 105, 13, 10,
    103, 101, 116, 32, 97, 13, 10]

theorem orderly_setGet (stop : Bytes → Bool) :
    Orderly Memcache.commandLen stop Memcache.Bounded setGet := by
  have hstarts : ∀ t ∈ [setGet, setGet.drop 17, []], Memcache.Bounded t ∧
      ∀ n ∈ Memcache.commandLen t, t.drop n ∈ [setGet, setGet.drop 17, []] := by decide +kernel
  intro t ht
  have hmem : t ∈ [setGet, setGet.drop 17, []] := by
    induction ht with
    | start => exact mem_cons_self
    | next _ hn _ ih => exact (hstarts _ ih).2 _ hn
  exact (hstarts t hmem).1

theorem memcache_chunks_setGet :
    (∃ r, Memcache.frame setGet = .ok r ∧ ∀ n, r = some n → 0 < n ∧ n ≤ setGet.length ∧
      ∀ q, Memcache.frame (setGet ++ q) = .ok (some n)) ∧
    ∀ chunks : List Bytes, chunks.flatten = setGet →
      ∃ c, arrive (fun _ => Memcache.closes) {} chunks = .ok c ∧
        c.inbound.handed = [setGet.take 17, setGet.drop 17] := by
  have hset := memcache_chunks (fun _ => Memcache.closes) setGet
  have hmode : modeOf setGet = some .memcache := by decide +kernel
  have hwhole : (arrive (fun _ => Memcache.closes) {} [setGet]).toOption.map (·.inbound.handed) =
      some [setGet.take 17, setGet.drop 17] := by decide +kernel
  refine ⟨(hset.1 setGet).2 (orderly_setGet (fun _ => false) _ .start), ?_⟩
  obtain ⟨cmds, -, hcmds⟩ := (hset.2 (.inr hmode)).2 (orderly_setGet _)
  obtain ⟨c, hc, rfl⟩ := hcmds [setGet] (by simp)
  rw [hc] at hwhole
  intro chunks hchunks
  obtain ⟨c', hc', hhanded⟩ := hcmds chunks hchunks
  exact ⟨c', hc', hhanded.trans (Option.some.inj hwhole)⟩

/-- `set a 0 0 18446744073709551615`: the end of the block leaves the range of `usize`. -/
theorem memcache_frame_overflows :
    Memcache.frame [115, 101, 116, 32, 97, 32, 48, 32, 48, 32, 49, 56, 52, 52, 54, 55, 52, 52, 48,
      55, 51, 55, 48, 57, 53, 53, 49, 54, 49, 53, 13, 10] = .error .overflow := by
  decide +kernel

end BonsaiGrid.Reactor
