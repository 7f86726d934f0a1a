import BonsaiGrid.Persistence.Record

/-!
# Snapshots

A snapshot is a header and typed sections: the entries of the maps with their stamps, and the
states of the other structures.
-/

namespace BonsaiGrid.Persistence

open Store LittleEndian Blob

abbrev StampedEntry := Str × Bytes × Bytes × ℕ

abbrev AuxEntry := AuxKind × Str × Bytes

def MAGIC : Bytes := [0x42, 0x53, 0x4E, 0x50]

def VERSION : ℕ := 1

def SECTION_MAP_ENTRIES : ℕ := 1

def SECTION_AUX : ℕ := 2

variable (e : StampedEntry)

def putEntry : Bytes :=
  put e.1.bytes ++ (put e.2.1 ++ (put e.2.2.1 ++ encode 8 e.2.2.2))

def putAux (a : AuxEntry) : Bytes := a.1.code :: (put a.2.1.bytes ++ put a.2.2)

variable {α : Type}

def counted (put : α → Bytes) (items : List α) : Bytes :=
  encode 4 items.length ++ (items.map put).flatten

def putSection (stype : ℕ) (body : Bytes) : Bytes :=
  encode 2 stype ++ (encode 4 body.length ++ body)

def snapshotBytes (entries : List StampedEntry) (aux : List AuxEntry) : Bytes :=
  MAGIC ++ (encode 2 VERSION ++
    (putSection SECTION_MAP_ENTRIES (counted putEntry entries) ++
      putSection SECTION_AUX (counted putAux aux)))

def entryRecord : WalRecord := .mapPut e.2.2.2 0 e.1 e.2.1 e.2.2.1

def auxRecord (a : AuxEntry) : WalRecord := .auxState a.1 a.2.1 a.2.2

/-- Up to `n` entries off the front, until one is cut short; an entry whose map name is
not a string is passed over. -/
def takeEntries : ℕ → Bytes → List WalRecord
  | 0, _ => []
  | n + 1, data =>
    match get data with
    | none => []
    | some (map, rest) =>
      match get rest with
      | none => []
      | some (key, rest) =>
        match get rest with
        | none => []
        | some (value, rest) =>
          if rest.length < 8 then []
          else
            let stamp := decode (rest.take 8)
            ((Str.fromUtf8 map).map fun map => .mapPut stamp 0 map key value).toList ++
              takeEntries n (rest.drop 8)

def takeAux : ℕ → Bytes → List WalRecord
  | 0, _ => []
  | _ + 1, [] => []
  | n + 1, kind :: data =>
    match get data with
    | none => []
    | some (name, rest) =>
      match get rest with
      | none => []
      | some (state, rest) =>
        ((Str.fromUtf8 name).bind fun name =>
          (AuxKind.ofCode kind).map fun kind => .auxState kind name state).toList ++
          takeAux n rest

def loadCounted (take : ℕ → Bytes → List WalRecord) (body : Bytes) : List WalRecord :=
  if body.length < 4 then [] else take (decode (body.take 4)) (body.drop 4)

def loadMapEntries (body : Bytes) : List WalRecord := loadCounted takeEntries body

def loadAux (body : Bytes) : List WalRecord := loadCounted takeAux body

def loadSection (stype : ℕ) (body : Bytes) : List WalRecord :=
  if stype = SECTION_MAP_ENTRIES then loadMapEntries body
  else if stype = SECTION_AUX then loadAux body
  else []

def loadSections : ℕ → Bytes → List WalRecord
  | 0, _ => []
  | fuel + 1, data =>
    if data.length < 6 then []
    else
      let stype := decode (data.take 2)
      let slen := decode ((data.drop 2).take 4)
      let rest := data.drop 6
      if rest.length < slen then []
      else
        loadSection stype (rest.take slen) ++ loadSections fuel (rest.drop slen)

def loadSnapshot (data : Bytes) : Option (List WalRecord) :=
  if data.length < 6 ∨ data.take 4 ≠ MAGIC then none
  else some (loadSections data.length (data.drop 6))

/-- Stamps are 64 bits wide, and the lengths of the sections fit their headers. -/
def SnapshotFits (entries : List StampedEntry) (aux : List AuxEntry) : Prop :=
  (∀ e ∈ entries, e.2.2.2 < 2 ^ 64) ∧ (counted putEntry entries).length < 2 ^ 32 ∧
    (counted putAux aux).length < 2 ^ 32

instance (entries : List StampedEntry) (aux : List AuxEntry) :
    Decidable (SnapshotFits entries aux) :=
  inferInstanceAs (Decidable (_ ∧ _))

section RoundTrip

variable {entries : List StampedEntry} {aux : List AuxEntry}

theorem length_le_flatten (put : α → Bytes) {items : List α} {x : α} (hx : x ∈ items) :
    (put x).length ≤ (items.map put).flatten.length :=
  (List.sublist_flatten_of_mem (List.mem_map_of_mem hx)).length_le

theorem length_counted (put : α → Bytes) (items : List α) :
    (counted put items).length = 4 + (items.map put).flatten.length := by
  rw [counted, List.length_append, encode_length]

theorem length_le_counted {put : α → Bytes} (hput : ∀ x, 0 < (put x).length)
    (items : List α) : items.length ≤ (items.map put).flatten.length := by
  induction items with
  | nil => exact Nat.zero_le _
  | cons x items ih =>
    have hx := hput x
    rw [List.map_cons, List.flatten_cons, List.length_append, List.length_cons]
    omega

theorem loadCounted_counted {put : α → Bytes} {take : ℕ → Bytes → List WalRecord}
    {items : List α} (hput : ∀ x, 0 < (put x).length) (h : (counted put items).length < 2 ^ 32) :
    loadCounted take (counted put items) = take items.length (items.map put).flatten := by
  rw [length_counted] at h
  have hcount := length_le_counted hput items
  rw [loadCounted, length_counted, if_neg (by omega), counted,
    decode_take_encode (by omega), drop_encode]

theorem length_putEntry :
    (putEntry e).length = 20 + e.1.bytes.length + e.2.1.length + e.2.2.1.length := by
  simp only [putEntry, List.length_append, length_put, encode_length]
  omega

theorem length_putAux (a : AuxEntry) :
    (putAux a).length = 9 + a.2.1.bytes.length + a.2.2.length := by
  simp only [putAux, List.length_cons, List.length_append, length_put]
  omega

theorem SnapshotFits.length_putEntry_lt (h : SnapshotFits entries aux) {e : StampedEntry}
    (he : e ∈ entries) : (putEntry e).length < 2 ^ 32 := by
  have hle := length_le_flatten putEntry he
  have hmap := h.2.1
  rw [length_counted] at hmap
  omega

theorem takeEntries_putEntry (hfit : ∀ e ∈ entries, (putEntry e).length < 2 ^ 32)
    (hstamp : ∀ e ∈ entries, e.2.2.2 < 2 ^ 64) :
    takeEntries entries.length (entries.map putEntry).flatten = entries.map entryRecord := by
  induction entries with
  | nil => rfl
  | cons e entries ih =>
    have hlen := hfit e List.mem_cons_self
    rw [length_putEntry] at hlen
    rw [List.map_cons, List.flatten_cons, List.length_cons, putEntry, List.append_assoc,
      List.append_assoc, List.append_assoc, takeEntries, get_put (by omega)]
    dsimp only
    rw [get_put (by omega)]
    dsimp only
    rw [get_put (by omega)]
    dsimp only
    rw [decode_take_encode (hstamp e List.mem_cons_self),
      drop_encode, Str.fromUtf8_bytes,
      ih (fun x hx => hfit x (List.mem_cons_of_mem e hx))
        fun x hx => hstamp x (List.mem_cons_of_mem e hx)]
    rfl

theorem takeAux_putAux (hfit : ∀ a ∈ aux, (putAux a).length < 2 ^ 32) :
    takeAux aux.length (aux.map putAux).flatten = aux.map auxRecord := by
  induction aux with
  | nil => rfl
  | cons a aux ih =>
    have hlen := hfit a List.mem_cons_self
    rw [length_putAux] at hlen
    rw [List.map_cons, List.flatten_cons, List.length_cons, putAux, List.cons_append,
      List.append_assoc, takeAux, get_put (by omega)]
    dsimp only
    rw [get_put (by omega)]
    dsimp only
    rw [Str.fromUtf8_bytes, AuxKind.ofCode_code,
      ih fun x hx => hfit x (List.mem_cons_of_mem a hx)]
    rfl

theorem loadSections_putSection_mod {stype : ℕ} (htype : stype < 256 ^ 2) (fuel : ℕ)
    (body rest : Bytes) :
    loadSections (fuel + 1) (putSection stype body ++ rest) =
      loadSection stype (body.take (body.length % 2 ^ 32)) ++
        loadSections fuel (body.drop (body.length % 2 ^ 32) ++ rest) := by
  have hhead : ¬ (putSection stype body ++ rest).length < 6 := by
    simp only [putSection, List.length_append, encode_length]
    omega
  have hdrop : (putSection stype body ++ rest).drop 6 = body ++ rest := by
    rw [putSection, List.append_assoc, List.append_assoc, show (6 : ℕ) = 2 + 4 from rfl,
      ← List.drop_drop, drop_encode, drop_encode]
  have hle : body.length % 2 ^ 32 ≤ body.length := Nat.mod_le _ _
  have hlen : decode ((encode 4 body.length ++ (body ++ rest)).take 4) =
      body.length % 2 ^ 32 := by
    rw [List.take_left' (encode_length 4 _), decode_encode_mod]
    rfl
  have hshort : ¬ (body ++ rest).length < body.length % 2 ^ 32 := by
    rw [List.length_append]
    omega
  rw [loadSections, if_neg hhead, hdrop]
  rw [putSection, List.append_assoc, List.append_assoc, decode_take_encode htype,
    drop_encode, hlen, if_neg hshort, List.take_append_of_le_length hle,
    List.drop_append_of_le_length hle]

theorem loadSections_putSection {stype fuel : ℕ} {body rest : Bytes} (htype : stype < 256 ^ 2)
    (hlen : body.length < 2 ^ 32) :
    loadSections (fuel + 1) (putSection stype body ++ rest) =
      loadSection stype body ++ loadSections fuel rest := by
  rw [loadSections_putSection_mod htype, Nat.mod_eq_of_lt hlen, List.take_length, List.drop_length,
    List.nil_append]

theorem loadSnapshot_eq (entries : List StampedEntry) (aux : List AuxEntry) :
    ∃ fuel, loadSnapshot (snapshotBytes entries aux) = some (loadSections (fuel + 3)
      (putSection SECTION_MAP_ENTRIES (counted putEntry entries) ++
        putSection SECTION_AUX (counted putAux aux))) := by
  have hsix : 6 ≤ (snapshotBytes entries aux).length := by
    simp only [snapshotBytes, List.length_append, encode_length,
      show MAGIC.length = 4 from rfl]
    omega
  have hdrop : (snapshotBytes entries aux).drop 6 =
      putSection SECTION_MAP_ENTRIES (counted putEntry entries) ++
        putSection SECTION_AUX (counted putAux aux) := by
    rw [snapshotBytes, show (6 : ℕ) = 4 + 2 from rfl, ← List.drop_drop,
      List.drop_left' (show MAGIC.length = 4 from rfl), drop_encode]
  have hmagic : (snapshotBytes entries aux).take 4 = MAGIC :=
    List.take_left' (show MAGIC.length = 4 from rfl)
  refine ⟨(snapshotBytes entries aux).length - 3, ?_⟩
  rw [loadSnapshot, if_neg (not_or.2 ⟨Nat.not_lt.2 hsix, not_not_intro hmagic⟩), hdrop,
    Nat.sub_add_cancel (by omega)]

theorem loadSnapshot_snapshotBytes (h : SnapshotFits entries aux) :
    loadSnapshot (snapshotBytes entries aux) =
      some (entries.map entryRecord ++ aux.map auxRecord) := by
  have hentry : ∀ e ∈ entries, (putEntry e).length < 2 ^ 32 := fun e he => h.length_putEntry_lt he
  obtain ⟨hstamp, hmap, haux⟩ := h
  have haux' : ∀ a ∈ aux, (putAux a).length < 2 ^ 32 := fun a ha => by
    have hle := length_le_flatten putAux ha
    rw [length_counted] at haux
    omega
  obtain ⟨fuel, heq⟩ := loadSnapshot_eq entries aux
  rw [heq, loadSections_putSection (by decide) hmap,
    ← List.append_nil (putSection SECTION_AUX (counted putAux aux)),
    loadSections_putSection (by decide) haux, show loadSections (fuel + 1) [] = [] from rfl,
    List.append_nil, loadSection, if_pos rfl, loadSection, if_neg (by decide), if_pos rfl,
    loadMapEntries, loadAux, loadCounted_counted (fun e => by rw [length_putEntry]; omega) hmap,
    loadCounted_counted (fun a => by rw [length_putAux]; omega) haux,
    takeEntries_putEntry hentry hstamp, takeAux_putAux haux']

end RoundTrip

end BonsaiGrid.Persistence
