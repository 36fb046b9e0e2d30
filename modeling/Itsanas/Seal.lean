/-
# Sealing

`seal.rs` of `itsanas-crypto`: everything that leaves a machine is sealed under a key derived from a
root key and a label, and the label is the canonical encoding of what the object is: its purpose,
its owner and its address, each part of variable length after its own length. A chunk is sealed with
a nonce that is derived too, from the same label with a suffix; a segment with one that is drawn.

The encoding is its own end: whatever follows it, it is found again (`associatedData_append_inj`).
So no two contexts have one label, and no key label is a nonce label (`labels_apart`). The
derivation is a parameter; the cipher itself is not modelled.
-/
import Itsanas.Oplog
import Itsanas.Lib.Records

namespace Itsanas

open Records (leBytes ofLe length_leBytes ofLe_leBytes)

def sealVersion : UInt8 := 1

def keyLen : ℕ := 32

def nonceLen : ℕ := 24

/-! ### What a sealed object is -/

/-- The bytes of an identifier, highest first. -/
def idBytes (id : Id) : Bytes := (leBytes 32 id.val).reverse

/-- A length as four bytes, cut to what they can hold. -/
def lengthBytes (n : ℕ) : Bytes := leBytes 4 (min n u32Max)

structure SealContext where
  purpose : String
  owner : UserId
  address : Bytes

namespace SealContext

def purposeBytes (context : SealContext) : Bytes := context.purpose.toByteArray.data.toList

/-- The canonical encoding of a context. -/
def associatedData (context : SealContext) : Bytes :=
  [sealVersion] ++ lengthBytes context.purposeBytes.length ++ context.purposeBytes ++
    idBytes context.owner ++
    lengthBytes context.address.length ++ context.address

/-- The label an object's key is derived with. -/
def keyLabel (context : SealContext) : Bytes := context.associatedData

/-- The label its derived nonce is derived with. -/
def nonceLabel (context : SealContext) : Bytes := context.keyLabel ++ "/nonce".toByteArray.data.toList

/-- No part of variable length is longer than its length can say. -/
def Short (context : SealContext) : Prop :=
  context.purposeBytes.length < 2 ^ 32 ∧ context.address.length < 2 ^ 32

end SealContext

theorem length_idBytes (id : Id) : (idBytes id).length = 32 := by
  rw [idBytes, List.length_reverse, length_leBytes]

theorem idBytes_inj {a b : Id} (h : idBytes a = idBytes b) : a = b := by
  have hbound : ∀ id : Id, id.val < 256 ^ 32 := fun id => by
    have hid := id.isLt
    norm_num at hid ⊢
    exact hid
  have hbytes := congrArg ofLe (List.reverse_injective h)
  rw [ofLe_leBytes (hbound a), ofLe_leBytes (hbound b)] at hbytes
  exact Fin.ext hbytes

theorem lengthBytes_inj {m n : ℕ} (hm : m < 2 ^ 32) (hn : n < 2 ^ 32)
    (h : lengthBytes m = lengthBytes n) : m = n := by
  have hcut : ∀ k < 2 ^ 32, min k u32Max = k := fun k hk => by
    unfold u32Max
    omega
  have hbytes := congrArg ofLe h
  rw [lengthBytes, lengthBytes, hcut m hm, hcut n hn, ofLe_leBytes (by norm_num; omega),
    ofLe_leBytes (by norm_num; omega)] at hbytes
  exact hbytes

/-- **A part after its length is its own end.** -/
theorem prefixed_append_inj {a b rest rest' : Bytes} (ha : a.length < 2 ^ 32) (hb : b.length < 2 ^ 32)
    (h : lengthBytes a.length ++ (a ++ rest) = lengthBytes b.length ++ (b ++ rest')) :
    a = b ∧ rest = rest' := by
  obtain ⟨hlength, htail⟩ :=
    List.append_inj h (by rw [lengthBytes, lengthBytes, length_leBytes, length_leBytes])
  exact List.append_inj htail (lengthBytes_inj ha hb hlength)

namespace SealContext

variable {c d : SealContext}

theorem purposeBytes_inj (h : c.purposeBytes = d.purposeBytes) : c.purpose = d.purpose :=
  String.toByteArray_inj.mp (ByteArray.ext (Array.toList_inj.mp h))

/-- **The encoding of a context is its own end.** -/
theorem associatedData_append_inj (hc : c.Short) (hd : d.Short) {rest rest' : Bytes}
    (h : c.associatedData ++ rest = d.associatedData ++ rest') : c = d ∧ rest = rest' := by
  simp only [associatedData, List.append_assoc] at h
  have hpurpose := List.append_cancel_left h
  obtain ⟨hp, hafter⟩ := prefixed_append_inj hc.1 hd.1 hpurpose
  obtain ⟨howner, haddress⟩ := List.append_inj hafter (by rw [length_idBytes, length_idBytes])
  obtain ⟨ha, hrest⟩ := prefixed_append_inj hc.2 hd.2 haddress
  refine ⟨?_, hrest⟩
  obtain ⟨purpose, owner, address⟩ := c
  obtain ⟨purpose', owner', address'⟩ := d
  cases purposeBytes_inj hp
  cases idBytes_inj howner
  cases ha
  rfl

theorem associatedData_inj (hc : c.Short) (hd : d.Short)
    (h : c.associatedData = d.associatedData) : c = d := by
  have happend : c.associatedData ++ [] = d.associatedData ++ [] := by rw [h]
  exact (associatedData_append_inj hc hd happend).1

/-- No key label is a nonce label. -/
theorem keyLabel_ne_nonceLabel (hc : c.Short) (hd : d.Short) : c.keyLabel ≠ d.nonceLabel := by
  intro h
  rw [keyLabel, nonceLabel, keyLabel, ← List.append_nil c.associatedData] at h
  have hsuffix := (associatedData_append_inj hc hd h).2
  revert hsuffix
  decide

end SealContext

/-! ### What is derived from a label -/

section

-- `expand` is the derivation: so many bytes from a root key and a label
variable (expand : ℕ → Bytes → Bytes → Bytes) (root : Bytes)

/-- The key an object is sealed under. -/
def cipherKey (context : SealContext) : Bytes := expand keyLen root context.keyLabel

def deterministicNonce (context : SealContext) : Bytes := expand nonceLen root context.nonceLabel

end

/-- **Contexts share nothing they are sealed with.** Of contexts whose parts are shorter than
`2 ^ 32` bytes, no two have the same associated data, and no key label is a nonce label. So where a
derivation has no collisions on the labels of some such contexts, no two of them have the same key
and nonce, and no nonce is what a key begins with. -/
theorem labels_apart :
    (∀ c d : SealContext, c.Short → d.Short → c.associatedData = d.associatedData → c = d) ∧
    Disjoint (SealContext.keyLabel '' {c | c.Short}) (SealContext.nonceLabel '' {c | c.Short}) ∧
    ∀ (expand : ℕ → Bytes → Bytes → Bytes) (root : Bytes) (contexts : Set SealContext),
      (∀ c ∈ contexts, c.Short) →
      (∀ n, n = keyLen ∨ n = nonceLen → Set.InjOn (expand n root)
        (SealContext.keyLabel '' contexts ∪ SealContext.nonceLabel '' contexts)) →
      Set.InjOn (fun c => (cipherKey expand root c, deterministicNonce expand root c)) contexts ∧
      ∀ c ∈ contexts, ∀ d ∈ contexts,
        expand nonceLen root c.keyLabel ≠ deterministicNonce expand root d := by
  refine ⟨fun c d hc hd h => SealContext.associatedData_inj hc hd h, ?_, ?_⟩
  · rw [Set.disjoint_left]
    rintro label ⟨c, hc, rfl⟩ ⟨d, hd, hlabel⟩
    exact SealContext.keyLabel_ne_nonceLabel hc hd hlabel.symm
  · intro expand root contexts hshort hfree
    have hkey : ∀ c ∈ contexts, c.keyLabel ∈
        SealContext.keyLabel '' contexts ∪ SealContext.nonceLabel '' contexts :=
      fun c hc => .inl ⟨c, hc, rfl⟩
    have hnonce : ∀ c ∈ contexts, c.nonceLabel ∈
        SealContext.keyLabel '' contexts ∪ SealContext.nonceLabel '' contexts :=
      fun c hc => .inr ⟨c, hc, rfl⟩
    constructor
    · intro c hc d hd heq
      have hkeys : expand keyLen root c.keyLabel = expand keyLen root d.keyLabel :=
        (Prod.mk.inj heq).1
      have hlabels : c.keyLabel = d.keyLabel := hfree keyLen (.inl rfl) (hkey c hc) (hkey d hd) hkeys
      exact SealContext.associatedData_inj (hshort c hc) (hshort d hd) hlabels
    · intro c hc d hd heq
      have hlabels : c.keyLabel = d.nonceLabel :=
        hfree nonceLen (.inr rfl) (hkey c hc) (hnonce d hd) heq
      exact SealContext.keyLabel_ne_nonceLabel (hshort c hc) (hshort d hd) hlabels

/-- A derivation that adds up the bytes of the root key and the label. -/
def addedUp (n : ℕ) (root label : Bytes) : Bytes := leBytes n ((root ++ label).map UInt8.toNat).sum

/-- One address, as a chunk's and as a segment's. -/
def chunkAt : SealContext := ⟨"chunk", 7, [1, 2, 3]⟩

def segmentAt : SealContext := ⟨"segment", 7, [1, 2, 3]⟩

theorem labels_apart_chunkAt :
    Set.InjOn (fun c => (cipherKey addedUp [5] c, deterministicNonce addedUp [5] c))
      {chunkAt, segmentAt} ∧
    addedUp nonceLen [5] chunkAt.keyLabel ≠ deterministicNonce addedUp [5] segmentAt := by
  let labels := [chunkAt.keyLabel, segmentAt.keyLabel, chunkAt.nonceLabel, segmentAt.nonceLabel]
  have hfree : ∀ n ∈ [keyLen, nonceLen], ∀ x ∈ labels, ∀ y ∈ labels,
      addedUp n [5] x = addedUp n [5] y → x = y := by decide +kernel
  have hlabels : ∀ x ∈ SealContext.keyLabel '' {chunkAt, segmentAt} ∪
      SealContext.nonceLabel '' {chunkAt, segmentAt}, x ∈ labels := by
    rintro x (⟨c, rfl | rfl, rfl⟩ | ⟨c, rfl | rfl, rfl⟩) <;> simp [labels]
  have hshort : ∀ c ∈ ({chunkAt, segmentAt} : Set SealContext), c.Short := by
    rintro c (rfl | rfl) <;> exact ⟨by decide +kernel, by decide +kernel⟩
  obtain ⟨hpairs, hnonces⟩ := labels_apart.2.2 addedUp [5] {chunkAt, segmentAt} hshort
    fun n hn x hx y hy => hfree n (by simpa using hn) x (hlabels x hx) y (hlabels y hy)
  exact ⟨hpairs, hnonces _ (by simp) _ (by simp)⟩

end Itsanas
