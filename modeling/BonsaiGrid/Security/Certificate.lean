import BonsaiGrid.Lib.Der
import BonsaiGrid.Security.Principal

/-!
# The identity in a client certificate

`cn_from_cert_der` scans a certificate for the object identifier of `commonName` and keeps the
last value it can read behind one. It does not parse: it knows nothing of where the subject begins
and ends, so an issuer, an extension or the bytes of a key can give the name as well.

A certificate is modelled by its fields and their encoding, so that one can say which of the bytes
belong to the subject. The name is the subject's exactly if no foreign name is the last that can be
read; for this it suffices that the last place where one can be read is an attribute of the subject.
-/

namespace BonsaiGrid.Security

open Der List UInt8 Option Nat

/-! ## Certificates -/

def commonName : Bytes := [0x55, 0x04, 0x03]

/-- An attribute of a name: its type, and the tag and the contents of its value. -/
structure Attribute where
  oid : Bytes
  tag : UInt8
  value : Bytes
deriving DecidableEq

def Attribute.body (a : Attribute) : Bytes := tlv 0x06 a.oid ++ tlv a.tag a.value

def Attribute.encode (a : Attribute) : Bytes := tlv 0x30 a.body

abbrev Rdn := List Attribute

def encodeAttributes (rdn : Rdn) : Bytes := (rdn.map Attribute.encode).flatten

def encodeRdn (rdn : Rdn) : Bytes := tlv 0x31 (encodeAttributes rdn)

abbrev Name := List Rdn

def encodeRdns (name : Name) : Bytes := (name.map encodeRdn).flatten

def encodeName (name : Name) : Bytes := tlv 0x30 (encodeRdns name)

structure Extension where
  oid : Bytes
  critical : Bool
  value : Bytes
deriving DecidableEq

def Extension.encode (e : Extension) : Bytes :=
  tlv 0x30 (tlv 0x06 e.oid ++ (if e.critical then tlv 0x01 [0xFF] else []) ++ tlv 0x04 e.value)

/-- A certificate. -/
structure Certificate where
  version : Bytes
  serialNumber : Bytes
  signature : Bytes
  issuer : Name
  validity : Bytes
  subject : Name
  publicKey : Bytes
  uniqueIds : Bytes
  extensions : List Extension
  signatureAlgorithm : Bytes
  signatureValue : Bytes
deriving DecidableEq

variable (c : Certificate)

namespace Certificate

def beforeSubject : Bytes :=
  c.version ++ tlv 0x02 c.serialNumber ++ tlv 0x30 c.signature ++ encodeName c.issuer ++
    tlv 0x30 c.validity

def afterSubject : Bytes :=
  tlv 0x30 c.publicKey ++ c.uniqueIds ++
    if c.extensions = [] then [] else tlv 0xA3 (tlv 0x30 (c.extensions.map Extension.encode).flatten)

def trailer : Bytes := tlv 0x30 c.signatureAlgorithm ++ tlv 0x03 c.signatureValue

def der : Bytes :=
  tlv 0x30 (tlv 0x30 (c.beforeSubject ++ encodeName c.subject ++ c.afterSubject) ++ c.trailer)

end Certificate

/-! ## The scan -/

def cnOid : Bytes := [0x06, 0x03, 0x55, 0x04, 0x03]

def readText : Bytes → Option Str
  | _ :: len :: rest =>
    if len.toNat < 0x80 ∧ len.toNat ≤ rest.length then Str.fromUtf8 (rest.take len.toNat)
    else none
  | _ => none

def readCn (t : Bytes) : Option Str := if t.take 5 = cnOid then readText (t.drop 5) else none

def scanCn : Option Str → Bytes → Option Str
  | found, [] => found
  | found, b :: t => scanCn ((readCn (b :: t)).or found) t

def cnFromCertDer (der : Bytes) : Option Str := scanCn none der

def authenticateCert (provider : StaticIdentityProvider) (der : Bytes) : Option Principal :=
  (cnFromCertDer der).bind provider.authenticateCert

section Scan

variable {found : Option Str} {der : Bytes} {cn : Str}

theorem scanCn_of_none (h : ∀ t, t <:+ der → readCn t = none) : scanCn found der = found := by
  induction der generalizing found with
  | nil => rfl
  | cons b rest ih =>
    rw [scanCn, h _ (suffix_refl _), none_or]
    exact ih fun t ht => h t (ht.trans (suffix_cons b rest))

/-- The scan returns what it reads last. -/
theorem scanCn_of_last {t : Bytes} (ht : t <:+ der) (hread : readCn t = some cn)
    (hlast : ∀ t', t' <:+ der → t'.length < t.length → readCn t' = none) :
    scanCn found der = some cn := by
  induction der generalizing found with
  | nil =>
    rw [suffix_nil.mp ht] at hread
    cases hread
  | cons b rest ih =>
    rcases suffix_cons_iff.mp ht with rfl | hrest
    · rw [scanCn, hread, some_or]
      refine scanCn_of_none fun t' ht' => hlast t' (ht'.trans (suffix_cons b rest)) ?_
      exact lt_succ_of_le ht'.length_le
    · exact ih hrest fun t' ht' => hlast t' (ht'.trans (suffix_cons b rest))

theorem scanCn_eq_some (h : scanCn found der = some cn) :
    (∃ t, t <:+ der ∧ readCn t = some cn ∧
      ∀ t', t' <:+ der → t'.length < t.length → readCn t' = none) ∨
    (found = some cn ∧ ∀ t, t <:+ der → readCn t = none) := by
  induction der generalizing found with
  | nil =>
    refine .inr ⟨h, fun t ht => ?_⟩
    rw [suffix_nil.mp ht]
    rfl
  | cons b rest ih =>
    rcases ih h with ⟨t, ht, hread, hlast⟩ | ⟨hfound, hnone⟩
    · refine .inl ⟨t, ht.trans (suffix_cons b rest), hread, fun t' ht' hlt => ?_⟩
      rcases suffix_cons_iff.mp ht' with rfl | hrest
      · have hle := ht.length_le
        rw [length_cons] at hlt
        omega
      · exact hlast t' hrest hlt
    · cases hread : readCn (b :: rest) with
      | none =>
        rw [hread] at hfound
        refine .inr ⟨hfound, fun t ht => ?_⟩
        rcases suffix_cons_iff.mp ht with rfl | hrest
        · exact hread
        · exact hnone t hrest
      | some cn' =>
        rw [hread] at hfound
        cases hfound
        refine .inl ⟨b :: rest, suffix_refl _, hread, fun t' ht' hlt => ?_⟩
        rcases suffix_cons_iff.mp ht' with rfl | hrest
        · exact absurd hlt (Nat.lt_irrefl _)
        · exact hnone t' hrest

end Scan

/-! ## Where the attributes of the subject stand -/

def attributeStarts : Rdn → Bytes → List (Attribute × Bytes)
  | [], _ => []
  | a :: rdn, after =>
    (a, a.body ++ (encodeAttributes rdn ++ after)) :: attributeStarts rdn after

def nameStarts : Name → Bytes → List (Attribute × Bytes)
  | [], _ => []
  | rdn :: name, after => attributeStarts rdn (encodeRdns name ++ after) ++ nameStarts name after

def Certificate.subjectStarts : List (Attribute × Bytes) :=
  nameStarts c.subject (c.afterSubject ++ c.trailer)

/-- Wherever the scan can read a common name in the certificate, at the same place or behind it
there is an attribute of the subject where it can. -/
def SubjectLast : Prop :=
  ∀ t ∈ c.der.tails, (readCn t).isSome →
    ∃ p ∈ c.subjectStarts, (readCn p.2).isSome ∧ p.2.length ≤ t.length

instance  : Decidable (SubjectLast c) :=
  inferInstanceAs (Decidable (∀ t ∈ c.der.tails, _))

section Subject

variable {a : Attribute} {p : Attribute × Bytes} {after : Bytes}

theorem encodeAttributes_cons (a : Attribute) (rdn : Rdn) :
    encodeAttributes (a :: rdn) = a.encode ++ encodeAttributes rdn := rfl

theorem encodeRdns_cons (rdn : Rdn) (name : Name) :
    encodeRdns (rdn :: name) = encodeRdn rdn ++ encodeRdns name := rfl

theorem suffix_tlv (tag : UInt8) (content rest : Bytes) :
    content ++ rest <:+ tlv tag content ++ rest := by
  rw [tlv_append]
  exact suffix_append _ _

theorem attributeStarts_spec {rdn : Rdn} (h : p ∈ attributeStarts rdn after) :
    p.1 ∈ rdn ∧ p.2 <:+ encodeAttributes rdn ++ after ∧ ∃ rest, p.2 = p.1.body ++ rest := by
  induction rdn with
  | nil => cases h
  | cons a rdn ih =>
    rw [encodeAttributes_cons, append_assoc]
    rcases mem_cons.mp h with rfl | hrest
    · exact ⟨mem_cons_self, suffix_tlv _ _ _, _, rfl⟩
    · obtain ⟨hmem, hsuffix, hbody⟩ := ih hrest
      exact ⟨mem_cons_of_mem a hmem, hsuffix.trans (suffix_append _ _), hbody⟩

theorem nameStarts_spec {name : Name} (h : p ∈ nameStarts name after) :
    (∃ rdn ∈ name, p.1 ∈ rdn) ∧ p.2 <:+ encodeRdns name ++ after ∧
      ∃ rest, p.2 = p.1.body ++ rest := by
  induction name with
  | nil => cases h
  | cons rdn name ih =>
    rw [encodeRdns_cons, append_assoc]
    rcases mem_append.mp h with hrdn | hname
    · obtain ⟨hmem, hsuffix, hbody⟩ := attributeStarts_spec hrdn
      exact ⟨⟨rdn, mem_cons_self, hmem⟩, hsuffix.trans (suffix_tlv _ _ _), hbody⟩
    · obtain ⟨⟨rdn', hrdn', hmem⟩, hsuffix, hbody⟩ := ih hname
      exact ⟨⟨rdn', mem_cons_of_mem rdn hrdn', hmem⟩,
        hsuffix.trans (suffix_append _ _), hbody⟩

theorem Certificate.suffix_der :
    encodeRdns c.subject ++ (c.afterSubject ++ c.trailer) <:+ c.der := by
  have houter := suffix_tlv 0x30
    (tlv 0x30 (c.beforeSubject ++ encodeName c.subject ++ c.afterSubject) ++ c.trailer) []
  rw [append_nil, append_nil] at houter
  refine List.IsSuffix.trans ?_ houter
  refine List.IsSuffix.trans ?_ (suffix_tlv _ _ _)
  rw [append_assoc, append_assoc]
  refine List.IsSuffix.trans ?_ (suffix_append _ _)
  exact suffix_tlv _ _ _

theorem oid_of_take {oid rest : Bytes} (hlen : oid.length < 2 ^ 63)
    (h : (tlv 0x06 oid ++ rest).take 5 = cnOid) :
    oid = commonName ∧ (tlv 0x06 oid ++ rest).drop 5 = rest := by
  rw [tlv_append] at h ⊢
  rcases Nat.lt_or_ge oid.length 128 with hshort | hlong
  · rw [lengthBytes_short hshort] at h ⊢
    have hbyte : ofNat oid.length = 3 := (cons.inj (cons.inj h).2).1
    have hthree : oid.length = 3 := by
      have htoNat : (ofNat oid.length).toNat = oid.length :=
        toNat_ofNat_of_lt (by show _ < 256; omega)
      rw [hbyte] at htoNat
      exact htoNat.symm
    have htake : (oid ++ rest).take 3 = commonName := (cons.inj (cons.inj h).2).2
    rw [← hthree, take_left] at htake
    refine ⟨htake, ?_⟩
    show (oid ++ rest).drop 3 = rest
    rw [← hthree, drop_left]
  · obtain ⟨b, more, hbytes, hhigh⟩ := lengthBytes_long hlong (by omega)
    rw [hbytes] at h
    have hbyte : b = 3 := (cons.inj (cons.inj h).2).1
    rw [hbyte] at hhigh
    exact absurd hhigh (by decide)

theorem value_of_readText {tag : UInt8} {value rest : Bytes} {cn : Str}
    (hlen : value.length < 2 ^ 63) (h : readText (tlv tag value ++ rest) = some cn) :
    value = cn.bytes := by
  rw [tlv_append] at h
  rcases Nat.lt_or_ge value.length 128 with hshort | hlong
  · rw [lengthBytes_short hshort] at h
    have htoNat : (ofNat value.length).toNat = value.length :=
      toNat_ofNat_of_lt (by show _ < 256; omega)
    have hread : readText (tag :: ofNat value.length :: (value ++ rest)) = some cn := h
    rw [readText, htoNat, take_left] at hread
    split at hread
    next =>
      rw [Str.fromUtf8] at hread
      split at hread
      next =>
        cases hread
        rfl
      next => cases hread
    next => cases hread
  · obtain ⟨b, more, hbytes, hhigh⟩ := lengthBytes_long hlong (by omega)
    have hread : readText (tag :: b :: (more ++ (value ++ rest))) = some cn := by
      rw [hbytes] at h
      exact h
    rw [readText, if_neg fun hlow => absurd hlow.1 (Nat.not_lt.mpr hhigh)] at hread
    cases hread

theorem readCn_body {rest : Bytes} {cn : Str} (hmem : (a.body ++ rest).length < 2 ^ 63)
    (h : readCn (a.body ++ rest) = some cn) : a.oid = commonName ∧ a.value = cn.bytes := by
  rw [Attribute.body, append_assoc] at h hmem
  have hlens : a.oid.length < 2 ^ 63 ∧ a.value.length < 2 ^ 63 := by
    simp only [tlv, length_append, length_cons] at hmem
    omega
  rw [readCn] at h
  split at h
  next htake =>
    obtain ⟨hoid, hdrop⟩ := oid_of_take hlens.1 htake
    rw [hdrop] at h
    exact ⟨hoid, value_of_readText hlens.2 h⟩
  next => cases h

theorem Certificate.subjectStarts_spec {c : Certificate} (h : p ∈ c.subjectStarts) :
    (∃ rdn ∈ c.subject, p.1 ∈ rdn) ∧ p.2 <:+ c.der ∧ ∃ rest, p.2 = p.1.body ++ rest := by
  obtain ⟨hmem, hsuffix, hbody⟩ := nameStarts_spec h
  exact ⟨hmem, hsuffix.trans c.suffix_der, hbody⟩

/-- A name that is a common name of the certificate's subject. -/
def Certificate.NamesSubject (cn : Str) : Prop :=
  ∃ rdn ∈ c.subject, ∃ a ∈ rdn, a.oid = commonName ∧ a.value = cn.bytes

instance  (cn : Str) : Decidable (c.NamesSubject cn) :=
  inferInstanceAs (Decidable (∃ rdn ∈ c.subject, ∃ a ∈ rdn, _))

/-- Behind every place where a name can be read that is no common name of the subject, a name can
be read again. -/
def SubjectWins : Prop :=
  ∀ t ∈ c.der.tails, ∀ cn ∈ readCn t,
    c.NamesSubject cn ∨ ∃ t' ∈ c.der.tails, (readCn t').isSome ∧ t'.length < t.length

instance : Decidable (SubjectWins c) :=
  inferInstanceAs (Decidable (∀ t ∈ c.der.tails, ∀ cn ∈ readCn t, _))

variable {c}

theorem subjectWins_of_subjectLast (hmem : c.der.length < 2 ^ 63) (hlast : SubjectLast c) :
    SubjectWins c := by
  intro t ht cn hread
  obtain ⟨p, hp, hsome, hle⟩ := hlast t ht (isSome_of_mem hread)
  obtain ⟨⟨rdn, hrdn, hattr⟩, hsuffix, rest, hbody⟩ := Certificate.subjectStarts_spec hp
  rcases Nat.lt_or_eq_of_le hle with hlt | heq
  · exact .inr ⟨p.2, (mem_tails _ _).mpr hsuffix, hsome, hlt⟩
  · -- the place is that of the attribute itself, whose value is then read
    have hsame : p.2 = t :=
      (suffix_of_suffix_length_le hsuffix ((mem_tails _ _).mp ht) hle).eq_of_length heq
    have hlen := hsuffix.length_le
    rw [mem_def, ← hsame, hbody] at hread
    rw [hbody] at hlen
    exact .inl ⟨rdn, hrdn, p.1, hattr, readCn_body (by omega) hread⟩

theorem namesSubject_iff :
    (∀ cn, cnFromCertDer c.der = some cn → c.NamesSubject cn) ↔ SubjectWins c := by
  constructor
  · intro hscan t ht cn hread
    by_contra hforeign
    obtain ⟨hnames, hbehind⟩ := not_or.mp hforeign
    refine hnames (hscan cn (scanCn_of_last ((mem_tails _ _).mp ht) hread fun t' ht' hlt => ?_))
    rw [← not_isSome_iff_eq_none]
    exact fun hsome => hbehind ⟨t', (mem_tails _ _).mpr ht', hsome, hlt⟩
  · intro hwins cn h
    rcases scanCn_eq_some h with ⟨t, ht, hread, hmin⟩ | ⟨hnone, -⟩
    · rcases hwins t ((mem_tails _ _).mpr ht) cn hread with hnames | ⟨t', ht', hsome, hlt⟩
      · exact hnames
      · rw [hmin t' ((mem_tails _ _).mp ht') hlt] at hsome
        cases hsome
    · cases hnone

end Subject

def sample (subject : Name) (extensions : List Extension) : Certificate where
  version := tlv 0xA0 (tlv 0x02 [2])
  serialNumber := [1]
  signature := tlv 0x06 [0x2A, 0x86, 0x48]
  issuer := [[⟨commonName, 0x0C, [99, 97]⟩]]
  validity := tlv 0x17 [50, 54] ++ tlv 0x17 [50, 55]
  subject := subject
  publicKey := tlv 0x03 [0, 1, 2, 3]
  uniqueIds := []
  extensions := extensions
  signatureAlgorithm := tlv 0x06 [0x2A, 0x86, 0x48]
  signatureValue := [0, 9, 9]

def bob : Certificate := sample [[⟨commonName, 0x0C, [98, 111, 98]⟩]] []

/-- An extension behind the subject repeats its name. -/
def repeated : Certificate :=
  sample bob.subject [⟨[0x55, 0x1D, 0x11], false, encodeName bob.subject⟩]

def acme : Certificate := sample [[⟨[0x55, 0x04, 0x0A], 0x0C, [97, 99, 109, 101]⟩]] []

def keyed : Certificate :=
  sample bob.subject [⟨[0x55, 0x1D, 0x23], false, encodeName bob.issuer⟩]

end BonsaiGrid.Security
