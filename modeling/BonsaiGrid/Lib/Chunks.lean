import BonsaiGrid.Lib.Fault

/-!
# Commands cut from a stream that arrives in chunks

A connection keeps the bytes it has not used yet, and cuts off what commands there are with every
chunk. Where a command ends must not depend on the bytes behind it; then the commands do not depend
on the chunks.
-/

namespace Chunks

open Fault List

variable {β : Type}

/-- A rule that gives the length of the command at the front, or `none` if it is not all
there. -/
structure Cutting (cut : List β → Option ℕ) : Prop where
  pos : ∀ {acc n}, cut acc = some n → 0 < n
  le : ∀ {acc n}, cut acc = some n → n ≤ acc.length
  stable : ∀ {acc n}, cut acc = some n → ∀ q, cut (acc ++ q) = some n

/-- The inbound side of a connection: the commands handed on so far, the bytes not used yet,
and whether a command asked to close. -/
structure Inbound (β : Type) where
  handed : List (List β) := []
  acc : List β := []
  closed : Bool := false
deriving DecidableEq

def drain (frame : List β → Except Fault (Option ℕ)) (stop : List β → Bool) :
    ℕ → Inbound β → Except Fault (Inbound β)
  | 0, _ => .error .endless
  | fuel + 1, c => do
      match ← frame c.acc with
      | none => return c
      | some n =>
        let cmd ← slice c.acc 0 n
        let c := { c with handed := c.handed ++ [cmd], acc := c.acc.drop n }
        if stop cmd then return { c with closed := true } else drain frame stop fuel c

def receive (frame : List β → Except Fault (Option ℕ)) (stop : List β → Bool) (c : Inbound β)
    (chunk : List β) : Except Fault (Inbound β) :=
  if c.closed then .ok c
  else drain frame stop (c.acc.length + chunk.length + 1) { c with acc := c.acc ++ chunk }

def feed (frame : List β → Except Fault (Option ℕ)) (stop : List β → Bool) :
    Inbound β → List (List β) → Except Fault (Inbound β)
  | c, [] => .ok c
  | c, chunk :: chunks => receive frame stop c chunk >>= fun c => feed frame stop c chunks

/-- What is cut from a stream: the commands, whether the last one asks to close, and the rest. -/
inductive Cuts (cut : List β → Option ℕ) (stop : List β → Bool) :
    List β → List (List β) → Bool → List β → Prop
  | wait {s : List β} : cut s = none → Cuts cut stop s [] false s
  | close {s : List β} {n : ℕ} : cut s = some n → stop (s.take n) = true →
      Cuts cut stop s [s.take n] true (s.drop n)
  | next {s : List β} {n : ℕ} {cmds : List (List β)} {closed : Bool} {rest : List β} :
      cut s = some n → stop (s.take n) = false → Cuts cut stop (s.drop n) cmds closed rest →
      Cuts cut stop s (s.take n :: cmds) closed rest

/-- A command of the stream `s` starts where `t` starts, and the connection comes to it. -/
inductive Boundary (cut : List β → Option ℕ) (stop : List β → Bool) (s : List β) :
    List β → Prop
  | start : Boundary cut stop s s
  | next {t : List β} {n : ℕ} : Boundary cut stop s t → cut t = some n → stop (t.take n) = false →
      Boundary cut stop s (t.drop n)

/-- Where the condition `Good` holds of bytes, the program's rule returns what the rule of the
format says; and it holds of fewer bytes if it holds of more. -/
structure Agrees (frame : List β → Except Fault (Option ℕ)) (cut : List β → Option ℕ)
    (Good : List β → Prop) : Prop where
  frame_eq : ∀ {acc}, Good acc → frame acc = .ok (cut acc)
  anti : ∀ {acc q}, Good (acc ++ q) → Good acc

/-- The condition holds wherever a command of the stream starts. -/
def Orderly (cut : List β → Option ℕ) (stop : List β → Bool) (Good : List β → Prop)
    (s : List β) : Prop := ∀ t, Boundary cut stop s t → Good t

section Cut

variable {cut : List β → Option ℕ} {stop : List β → Bool} {s p q rest rest' : List β}
  {cmds cmds' : List (List β)} {closed closed' : Bool}

theorem Cutting.nil (h : Cutting cut) : cut [] = none := by
  cases hn : cut [] with
  | none => rfl
  | some n =>
    have hpos := h.pos hn
    have hle := h.le hn
    exact absurd hpos (Nat.not_lt.mpr hle)

theorem Cutting.exists_cuts (h : Cutting cut) (stop : List β → Bool) (s : List β) :
    ∃ cmds closed rest, Cuts cut stop s cmds closed rest := by
  induction hlen : s.length using Nat.strongRecOn generalizing s with
  | ind len ih =>
    cases hn : cut s with
    | none => exact ⟨[], false, s, .wait hn⟩
    | some n =>
      cases hs : stop (s.take n) with
      | true => exact ⟨_, _, _, .close hn hs⟩
      | false =>
        have hshort : (s.drop n).length < len := by
          have hpos := h.pos hn
          have hle := h.le hn
          rw [length_drop]
          omega
        obtain ⟨cmds, closed, rest, hcuts⟩ := ih _ hshort (s.drop n) rfl
        exact ⟨_, _, _, .next hn hs hcuts⟩

theorem Cuts.unique (h : Cuts cut stop s cmds closed rest)
    (h' : Cuts cut stop s cmds' closed' rest') :
    cmds = cmds' ∧ closed = closed' ∧ rest = rest' := by
  induction h generalizing cmds' with
  | wait hn =>
    cases h' with
    | wait hn' => exact ⟨rfl, rfl, rfl⟩
    | close hn' _ | next hn' _ _ => rw [hn] at hn'; cases hn'
  | close hn hs =>
    cases h' with
    | wait hn' => rw [hn] at hn'; cases hn'
    | close hn' _ =>
      rw [hn] at hn'
      cases hn'
      exact ⟨rfl, rfl, rfl⟩
    | next hn' hs' _ =>
      rw [hn] at hn'
      cases hn'
      rw [hs] at hs'
      cases hs'
  | next hn hs _ ih =>
    cases h' with
    | wait hn' => rw [hn] at hn'; cases hn'
    | close hn' hs' =>
      rw [hn] at hn'
      cases hn'
      rw [hs] at hs'
      cases hs'
    | next hn' hs' hrest' =>
      rw [hn] at hn'
      cases hn'
      obtain ⟨rfl, hclosed, hrest⟩ := ih hrest'
      exact ⟨rfl, hclosed, hrest⟩

theorem Cutting.take_append (h : Cutting cut) {n : ℕ} (hn : cut p = some n) (q : List β) :
    (p ++ q).take n = p.take n ∧ (p ++ q).drop n = p.drop n ++ q :=
  ⟨take_append_of_le_length (h.le hn), drop_append_of_le_length (h.le hn)⟩

theorem Cuts.append_open (h : Cutting cut) (hp : Cuts cut stop p cmds closed rest)
    (hopen : closed = false) (hq : Cuts cut stop (rest ++ q) cmds' closed' rest') :
    Cuts cut stop (p ++ q) (cmds ++ cmds') closed' rest' := by
  induction hp with
  | wait hn => exact hq
  | close hn hs => cases hopen
  | next hn hs _ ih =>
    obtain ⟨htake, hdrop⟩ := h.take_append hn q
    rw [← htake]
    refine .next (h.stable hn q) ?_ ?_
    · rw [htake, hs]
    · rw [hdrop]
      exact ih hopen hq

theorem Cuts.append_closed (h : Cutting cut) (hp : Cuts cut stop p cmds closed rest)
    (hclosed : closed = true) (q : List β) : Cuts cut stop (p ++ q) cmds closed (rest ++ q) := by
  induction hp with
  | wait hn => cases hclosed
  | close hn hs =>
    obtain ⟨htake, hdrop⟩ := h.take_append hn q
    rw [← htake, ← hdrop]
    exact .close (h.stable hn q) (by rw [htake, hs])
  | next hn hs _ ih =>
    obtain ⟨htake, hdrop⟩ := h.take_append hn q
    rw [← htake]
    refine .next (h.stable hn q) ?_ ?_
    · rw [htake, hs]
    · rw [hdrop]
      exact ih hclosed

theorem Cuts.cut_rest (hp : Cuts cut stop p cmds closed rest) (hopen : closed = false) :
    cut rest = none := by
  induction hp with
  | wait hn => exact hn
  | close hn hs => cases hopen
  | next hn hs _ ih => exact ih hopen

end Cut

variable {cmds : List (List β)} {closed : Bool} {rest : List β}

section Boundaries

variable {cut : List β → Option ℕ} {stop : List β → Bool} {s p q t : List β}

theorem Boundary.trans {u : List β} (h : Boundary cut stop s t) (h' : Boundary cut stop t u) :
    Boundary cut stop s u := by
  induction h' with
  | start => exact h
  | next _ hn hs ih => exact .next ih hn hs

theorem Boundary.append (h : Cutting cut) (hb : Boundary cut stop p t) (q : List β) :
    Boundary cut stop (p ++ q) (t ++ q) := by
  induction hb with
  | start => exact .start
  | next _ hn hs ih =>
    obtain ⟨htake, hdrop⟩ := h.take_append hn q
    rw [← hdrop]
    exact .next ih (h.stable hn q) (by rw [htake, hs])

theorem Cuts.boundary (hp : Cuts cut stop p cmds closed rest) (hopen : closed = false) :
    Boundary cut stop p rest := by
  induction hp with
  | wait _ => exact .start
  | close _ _ => cases hopen
  | next hn hs _ ih => exact (Boundary.start.next hn hs).trans (ih hopen)

theorem Cuts.of_mem {rest cmd : List β}
    (hs : Cuts cut stop s cmds closed rest) (hmem : cmd ∈ cmds) :
    ∃ t n, Boundary cut stop s t ∧ cut t = some n ∧ cmd = t.take n := by
  induction hs with
  | wait _ => cases hmem
  | close hn _ => exact ⟨_, _, .start, hn, mem_singleton.mp hmem⟩
  | next hn hs _ ih =>
    rcases mem_cons.mp hmem with heq | hrest
    · exact ⟨_, _, .start, hn, heq⟩
    · obtain ⟨t, n, hb, ht, hcmd⟩ := ih hrest
      exact ⟨t, n, (Boundary.start.next hn hs).trans hb, ht, hcmd⟩

variable {frame : List β → Except Fault (Option ℕ)} {Good : List β → Prop}

theorem Orderly.of_append (h : Cutting cut) (ha : Agrees frame cut Good)
    (ho : Orderly cut stop Good (p ++ q)) : Orderly cut stop Good p :=
  fun t ht => ha.anti (ho (t ++ q) (ht.append h q))

theorem Orderly.of_boundary (ho : Orderly cut stop Good s) (hb : Boundary cut stop s t) :
    Orderly cut stop Good t := fun u hu => ho u (hb.trans hu)

end Boundaries

section Run

variable {frame : List β → Except Fault (Option ℕ)} {cut : List β → Option ℕ}
  {Good : List β → Prop} {stop : List β → Bool}

theorem drain_eq (h : Cutting cut) (ha : Agrees frame cut Good) {s : List β}
    (hs : Cuts cut stop s cmds closed rest)
    (ho : Orderly cut stop Good s) {fuel : ℕ} (hfuel : s.length < fuel) (done : List (List β)) :
    drain frame stop fuel { handed := done, acc := s, closed := false } =
      .ok { handed := done ++ cmds, acc := rest, closed := closed } := by
  induction fuel generalizing s cmds done with
  | zero => omega
  | succ fuel ih =>
    have hframe := ha.frame_eq (ho s .start)
    rw [drain]
    rw [hframe, ok_bind]
    cases hs with
    | wait hn =>
      rw [hn, append_nil]
      rfl
    | @close _ n hn hstop =>
      rw [hn]
      dsimp only
      rw [slice_eq (Nat.zero_le n) (h.le hn), ok_bind, drop_zero, if_pos hstop]
      rfl
    | @next _ n cmds _ _ hn hstop hrest =>
      rw [hn]
      dsimp only
      have hpos := h.pos hn
      have hle := h.le hn
      have hshort : (s.drop n).length < fuel := by
        rw [length_drop]
        omega
      rw [slice_eq (Nat.zero_le n) hle, ok_bind,
        if_neg (Bool.not_eq_true _ ▸ hstop),
        ih hrest (ho.of_boundary (Boundary.start.next hn hstop)) hshort, append_assoc]
      rfl

/-- A loop that returns has come to every place where a command starts. -/
theorem drain_boundary (h : Cutting cut) (hframe : ∀ {acc r}, frame acc = .ok r → r = cut acc)
    {s t : List β} {fuel : ℕ} {done : List (List β)}
    (hr : Returns (drain frame stop fuel { handed := done, acc := s, closed := false }))
    (hb : Boundary cut stop s t) :
    ∃ fuel done, Returns (drain frame stop fuel { handed := done, acc := t, closed := false }) := by
  induction hb with
  | start => exact ⟨fuel, done, hr⟩
  | @next t n hb hn hstop ih =>
    obtain ⟨fuel, done, c, hc⟩ := ih
    cases fuel with
    | zero => cases hc
    | succ fuel =>
      obtain ⟨found, hfound, hc⟩ := bind_eq_ok.1 hc
      rw [hframe hfound, hn] at hc
      dsimp only at hc
      rw [slice_eq (Nat.zero_le n) (h.le hn), ok_bind, if_neg (by rw [drop_zero, hstop]; decide)] at hc
      exact ⟨fuel, _, c, hc⟩

/-- A stream that is received at one go is orderly, if the rule of the program returns only where
`Good` holds. -/
theorem orderly_of_receive (h : Cutting cut) (hframe : ∀ {acc r}, frame acc = .ok r → r = cut acc)
    (hgood : ∀ {acc}, Returns (frame acc) → Good acc) {s : List β}
    (hr : Returns (receive frame stop {} s)) : Orderly cut stop Good s := by
  intro t hb
  obtain ⟨fuel, done, c, hc⟩ := drain_boundary h hframe hr hb
  refine hgood ?_
  cases fuel with
  | zero => cases hc
  | succ fuel =>
    obtain ⟨found, hfound, -⟩ := bind_eq_ok.1 hc
    exact ⟨found, hfound⟩

variable {c : Inbound β}

theorem receive_eq (h : Cutting cut) (ha : Agrees frame cut Good)
    (hopen : c.closed = false) {chunk : List β}
    (hs : Cuts cut stop (c.acc ++ chunk) cmds closed rest)
    (ho : Orderly cut stop Good (c.acc ++ chunk)) :
    receive frame stop c chunk =
      .ok { handed := c.handed ++ cmds, acc := rest, closed := closed } := by
  obtain ⟨handed, acc, closed₀⟩ := c
  cases hopen
  refine drain_eq h ha hs ho ?_ handed
  rw [length_append]
  exact Nat.lt_succ_self _

theorem feed_closed (h : c.closed = true) (chunks : List (List β)) :
    feed frame stop c chunks = .ok c := by
  induction chunks with
  | nil => rfl
  | cons chunk chunks ih => rw [feed, receive, if_pos h, ok_bind, ih]

/-- From a connection that has used all it can, whatever the chunks of the rest of the stream
are, the commands handed on are those of the rest. -/
theorem feed_eq (h : Cutting cut) (ha : Agrees frame cut Good)
    (hopen : c.closed = false) (hwait : cut c.acc = none) {chunks : List (List β)}
    (hs : Cuts cut stop (c.acc ++ chunks.flatten) cmds closed rest)
    (ho : Orderly cut stop Good (c.acc ++ chunks.flatten)) :
    ∃ acc, feed frame stop c chunks =
      .ok { handed := c.handed ++ cmds, acc := acc, closed := closed } := by
  induction chunks generalizing c cmds with
  | nil =>
    rw [flatten_nil, append_nil] at hs
    obtain ⟨rfl, rfl, -⟩ := hs.unique (.wait hwait)
    obtain ⟨handed, acc, closed₀⟩ := c
    cases hopen
    exact ⟨acc, by rw [feed, append_nil]⟩
  | cons chunk chunks ih =>
    rw [flatten_cons, ← append_assoc] at hs ho
    obtain ⟨cmds₁, closed₁, rest₁, h₁⟩ := h.exists_cuts stop (c.acc ++ chunk)
    rw [feed, receive_eq h ha hopen h₁ (ho.of_append h ha), ok_bind]
    cases hclosed : closed₁ with
    | true =>
      obtain ⟨rfl, rfl, -⟩ := hs.unique (h₁.append_closed h hclosed chunks.flatten)
      refine ⟨rest₁, ?_⟩
      rw [hclosed, feed_closed rfl]
    | false =>
      obtain ⟨cmds₂, closed₂, rest₂, h₂⟩ := h.exists_cuts stop (rest₁ ++ chunks.flatten)
      obtain ⟨rfl, rfl, rfl⟩ := hs.unique (h₁.append_open h hclosed h₂)
      have hb := (h₁.boundary hclosed).append h chunks.flatten
      obtain ⟨acc, hfeed⟩ := ih (c := ⟨c.handed ++ cmds₁, rest₁, false⟩) rfl
        (h₁.cut_rest hclosed) h₂ (ho.of_boundary hb)
      refine ⟨acc, ?_⟩
      rw [hfeed, append_assoc]

/-- **The chunks do not matter.** The commands of an orderly stream are handed on, whatever the
chunks are in which it arrives. -/
theorem feed_chunks (h : Cutting cut) (ha : Agrees frame cut Good) {s : List β}
    (hs : Cuts cut stop s cmds closed rest)
    (ho : Orderly cut stop Good s) {chunks : List (List β)} (hchunks : chunks.flatten = s) :
    ∃ acc, feed frame stop {} chunks = .ok { handed := cmds, acc := acc, closed := closed } := by
  subst hchunks
  exact feed_eq h ha rfl h.nil hs ho

end Run

end Chunks
