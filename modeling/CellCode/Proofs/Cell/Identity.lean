import CellCode.Proofs.Cell.Reaching
import CellCode.Proofs.Container.Bytes
import CellCode.Proofs.Lists

/-!
# Digests identify cells

The digest of a cell is taken of bytes that are put together without separators: two descriptor
bytes, the bits, the depths of the references and their digests. The descriptors tell how many
bytes of each there are and whether the last byte of the bits is tagged, so the bytes come apart
in one way only.

Where SHA-256 has no collision among these bytes, equal digests therefore mean equal bits and
references of equal digests, and by induction over the references the same tree.

## Key results

- `digest_eq`: the digest is that of the preimage
- `representation_eq`: what a preimage says about the cell
- `distinctDigestsFrom_of_noCollisions`: without collisions no two different cells share a digest
- `digest_identifies`: the preimage determines the cell's content, and the digest the whole tree
-/

namespace CellCode

-- Powers are those of the standard library, whatever else is in scope.
attribute [local instance (high)] instPowNat

/-! ## Parts of fixed width -/

/-- Rows of parts of one width are equal only part by part, if there are equally many. What each
    part determines is then the same on both sides. -/
private theorem map_eq_of_flatMap_eq {α β γ : Type} (part : α → List β) (g : α → γ) (width : Nat)
    (hwidth : ∀ a, (part a).length = width) (hpart : ∀ a b, part a = part b → g a = g b)
    (as bs : List α) (hlength : as.length = bs.length) (h : as.flatMap part = bs.flatMap part) :
    as.map g = bs.map g := by
  induction as generalizing bs with
  | nil =>
    obtain rfl := List.length_eq_zero_iff.mp hlength.symm
    rfl
  | cons a as ih =>
    cases bs with
    | nil => simp at hlength
    | cons b bs =>
      simp only [List.flatMap_cons] at h
      obtain ⟨hfirst, hrest⟩ := List.append_inj h (by rw [hwidth, hwidth])
      rw [List.map_cons, List.map_cons, hpart a b hfirst, ih bs (by simpa using hlength) hrest]

private theorem ofNat_byte_inj (m n : Nat) (hm : m < 256) (hn : n < 256)
    (h : UInt8.ofNat m = UInt8.ofNat n) : m = n := by
  have := congrArg UInt8.toNat h
  rw [UInt8.toNat_ofNat', UInt8.toNat_ofNat'] at this
  omega

namespace Digest

/-- The four bytes of a word determine it. -/
private theorem wordBytes_inj (v w : UInt32) (h : wordBytes v = wordBytes w) : v = w := by
  simp only [wordBytes, List.cons.injEq, and_true] at h
  obtain ⟨h₀, h₁, h₂, h₃⟩ := h
  have hbyte (n : UInt32) : (v >>> n).toUInt8 = (w >>> n).toUInt8 →
      v.toNat >>> (n.toNat % 32) % 256 = w.toNat >>> (n.toNat % 32) % 256 := by
    intro h
    simpa using congrArg UInt8.toNat h
  have h₀ := hbyte 24 h₀
  have h₁ := hbyte 16 h₁
  have h₂ := hbyte 8 h₂
  have h₃ : v.toNat % 256 = w.toNat % 256 := by simpa using congrArg UInt8.toNat h₃
  simp only [UInt32.reduceToNat, Nat.reduceMod, Nat.shiftRight_eq_div_pow, Nat.reducePow]
    at h₀ h₁ h₂
  have hv := v.toNat_lt
  have hw := w.toNat_lt
  apply UInt32.toNat.inj
  omega

/-- The 32 bytes of a digest determine it. -/
theorem toBytes_inj (x y : Digest) (h : x.toBytes = y.toBytes) : x = y := by
  have hwords := map_eq_of_flatMap_eq wordBytes id 4 (fun _ => rfl) wordBytes_inj x.words y.words
    rfl h
  rw [List.map_id, List.map_id] at hwords
  cases x
  cases y
  simpa [words] using hwords

/-- The two digits of a byte determine it. -/
private theorem byteHex_inj (a b : UInt8) (h : byteHex a = byteHex b) : a = b := by
  have hdigit : ∀ m < 16, ∀ n < 16, Nat.digitChar m = Nat.digitChar n → m = n := by decide
  have ha := a.toNat_lt
  have hb := b.toNat_lt
  simp only [byteHex, List.cons.injEq, and_true] at h
  have hhigh := hdigit _ (by omega) _ (by omega) h.1
  have hlow := hdigit _ (by omega) _ (by omega) h.2
  apply UInt8.toNat.inj
  omega

/-- The digits of a digest determine it. -/
theorem toHex_inj (x y : Digest) (h : x.toHex = y.toHex) : x = y := by
  have hdigits := String.ofList_inj.mp h
  have hbytes := map_eq_of_flatMap_eq byteHex id 2 (fun _ => rfl) byteHex_inj x.toBytes y.toBytes
    (by rw [length_toBytes, length_toBytes]) hdigits
  rw [List.map_id, List.map_id] at hbytes
  exact toBytes_inj x y hbytes

end Digest

/-- Tagged bytes determine the bits, once it is known whether there is a tag. -/
theorem Bits.toTaggedBytes_inj (a b : Bits) (htag : a.length % 8 = 0 ↔ b.length % 8 = 0)
    (h : a.toTaggedBytes = b.toTaggedBytes) : a = b := by
  have hfill : a.fill 8 = b.fill 8 := by
    rw [← ofBytes_toTaggedBytes, h, ofBytes_toTaggedBytes]
  by_cases hwhole : a.length % 8 = 0
  · simpa only [fill, if_pos hwhole, if_pos (htag.mp hwhole)] using hfill
  · simp only [fill, if_neg hwhole, if_neg fun hb => hwhole (htag.mpr hb)] at hfill
    have huntag := congrArg untag? hfill
    simpa using huntag

namespace Cell

/-! ## The bytes that a digest is taken of -/

/-- The bytes whose digest is the cell's. -/
def preimage (c : Cell) : List UInt8 :=
  representation c.bits (c.refs.map fun r => (r.depth, r.digest))

/-- A cell's summary is that of its bits and of the depths and digests of its references. -/
theorem summary_eq (c : Cell) :
    c.summary = .of c.bits (c.refs.map fun r => (r.depth, r.digest)) := by
  induction c with
  | data b => rfl
  | link c r ih _ =>
    show c.summary.push r.depth r.summary.digest = _
    rw [ih, Summary.push, bits_link, refs_link, List.map_append]
    rfl

/-- The digest of a cell is the SHA-256 digest of its preimage. -/
theorem digest_eq (c : Cell) : c.digest = Digest.sha256 c.preimage := by
  rw [digest, summary_eq]
  rfl

/-- The second descriptor tells the number of bytes and whether the last one is tagged. -/
private theorem length_of_descriptor (a b : Bits) (ha : a.length ≤ maxBits)
    (hb : b.length ≤ maxBits)
    (h : UInt8.ofNat (a.length / 8 + (a.length + 7) / 8) =
      UInt8.ofNat (b.length / 8 + (b.length + 7) / 8)) :
    (a.length % 8 = 0 ↔ b.length % 8 = 0) ∧ (a.length + 7) / 8 = (b.length + 7) / 8 := by
  simp only [maxBits] at ha hb
  have hsum := ofNat_byte_inj _ _ (by omega) (by omega) h
  omega

/-- Two bytes hold the depth up to its multiples of `65536`. -/
private theorem depthBytes_inj (m n : Nat) (h : depthBytes m = depthBytes n) :
    m % 65536 = n % 65536 := by
  simp only [depthBytes, List.cons.injEq, and_true] at h
  obtain ⟨hhigh, hlow⟩ := h
  have hhigh := congrArg UInt8.toNat hhigh
  have hlow := congrArg UInt8.toNat hlow
  rw [UInt8.toNat_ofNat', UInt8.toNat_ofNat'] at hhigh hlow
  omega

/-- A preimage comes apart in one way. -/
theorem representation_eq (bits bits' : Bits) (children children' : List (Nat × Digest))
    (hbits : bits.length ≤ maxBits) (hbits' : bits'.length ≤ maxBits)
    (hcount : children.length ≤ maxRefs) (hcount' : children'.length ≤ maxRefs)
    (h : representation bits children = representation bits' children') :
    bits = bits' ∧ children.length = children'.length ∧
      children.map (fun child => child.1 % 65536) = children'.map (fun child => child.1 % 65536) ∧
      children.map (·.2) = children'.map (·.2) := by
  simp only [representation, descriptors, List.append_assoc, List.cons_append, List.nil_append,
    List.cons.injEq] at h
  obtain ⟨hrefs, hlength, h⟩ := h
  simp only [maxRefs] at hcount hcount'
  have hrefs := ofNat_byte_inj _ _ (by omega) (by omega) hrefs
  obtain ⟨htag, hbytes⟩ := length_of_descriptor bits bits' hbits hbits' hlength
  -- Each part is as long in one preimage as in the other, so they are cut in the same places.
  obtain ⟨hdata, h⟩ := List.append_inj h (by
    rw [Bits.length_toTaggedBytes, Bits.length_toTaggedBytes, hbytes])
  obtain ⟨hdepths, hdigests⟩ := List.append_inj h (by
    simp [List.length_flatMap, depthBytes, hrefs])
  refine ⟨Bits.toTaggedBytes_inj _ _ htag hdata, hrefs, ?_, ?_⟩
  · exact map_eq_of_flatMap_eq _ _ 2 (fun _ => rfl) (fun _ _ h => depthBytes_inj _ _ h) _ _ hrefs
      hdepths
  · exact map_eq_of_flatMap_eq _ _ 32 (fun _ => Digest.length_toBytes _)
      (fun _ _ h => Digest.toBytes_inj _ _ h) _ _ hrefs hdigests

/-- What two cells with one preimage have in common. -/
theorem parts_eq_of_preimage_eq (c d : Cell) (hc : c.Fits) (hd : d.Fits)
    (h : c.preimage = d.preimage) :
    c.bits = d.bits ∧ c.refs.length = d.refs.length ∧
      c.refs.map (·.depth % 65536) = d.refs.map (·.depth % 65536) ∧
      c.refs.map digest = d.refs.map digest := by
  have hparts := representation_eq _ _ _ _ hc.1 hd.1 (by simpa using hc.2) (by simpa using hd.2) h
  simpa [Function.comp_def] using hparts

/-! ## Trees without collisions -/

/-- SHA-256 has no collision among the preimages of the cells reached from these roots. -/
def NoCollisions (roots : List Cell) : Prop :=
  ∀ c d, ReachedFrom roots c → ReachedFrom roots d →
    Digest.sha256 c.preimage = Digest.sha256 d.preimage → c.preimage = d.preimage

/-- Where SHA-256 has no collision, no two different cells share a digest. -/
theorem distinctDigestsFrom_of_noCollisions (roots : List Cell) (hroots : ∀ r ∈ roots, r.InCapacity)
    (h : NoCollisions roots) : DistinctDigestsFrom roots := by
  have hfits (c : Cell) (hc : ReachedFrom roots c) : c.Fits := by
    obtain ⟨r, hr, hreaches⟩ := hc
    exact (hreaches.inCapacity (hroots r hr)).fits
  intro c
  -- Equal digests lead to references of equal digests, which are smaller trees.
  induction c using Cell.induction with
  | step c ih =>
    intro d hc hd hdigest
    rw [digest_eq, digest_eq] at hdigest
    obtain ⟨hbits, _, _, hdigests⟩ :=
      parts_eq_of_preimage_eq c d (hfits c hc) (hfits d hd) (h c d hc hd hdigest)
    apply ext_parts hbits
    refine eq_of_map_eq digest c.refs d.refs ?_ hdigests
    intro r hr s hs heq
    exact ih r hr s (hc.refs r hr) (hd.refs s hs) heq

/-! ## What a digest stands for -/

/-- A cell's digest is that of its preimage. The preimage determines the bits, the number of
    references and their depths and digests. On trees without collisions the digest determines
    the whole tree. -/
theorem digest_identifies :
    (∀ c : Cell, c.digest = Digest.sha256 c.preimage) ∧
    (∀ c d : Cell, c.Fits → d.Fits → c.ShallowRefs → d.ShallowRefs → c.preimage = d.preimage →
      c.bits = d.bits ∧ c.refs.length = d.refs.length ∧ c.refs.map depth = d.refs.map depth ∧
        c.refs.map digest = d.refs.map digest) ∧
    ∀ c d : Cell, c.InCapacity → d.InCapacity → NoCollisions [c, d] →
      (c.digest = d.digest ↔ c = d) := by
  refine ⟨digest_eq, ?_, ?_⟩
  · intro c d hc hd hshallow hshallow' h
    obtain ⟨hbits, hcount, hdepths, hdigests⟩ := parts_eq_of_preimage_eq c d hc hd h
    refine ⟨hbits, hcount, ?_, hdigests⟩
    have hmod (e : Cell) (he : e.ShallowRefs) : e.refs.map (·.depth % 65536) = e.refs.map depth :=
      List.map_congr_left fun r hr => Nat.mod_eq_of_lt (Nat.lt_succ_of_le (he r hr))
    rw [← hmod c hshallow, ← hmod d hshallow', hdepths]
  · intro c d hc hd hcollisions
    constructor
    · intro h
      have hdistinct := distinctDigestsFrom_of_noCollisions [c, d] (by simp [hc, hd]) hcollisions
      exact hdistinct c d ⟨c, by simp, .self c⟩ ⟨d, by simp, .self d⟩ h
    · intro h
      rw [h]

/-- A bit that takes up a tagged byte, and the eight bits of the same byte. -/
private def tagged : Cell := .data [true]
private def whole : Cell := .data [true, true, false, false, false, false, false, false]

/-- Cells that differ only in what their references make of one byte. -/
def aboveTagged : Cell := .mk [true] [tagged]
def aboveWhole : Cell := .mk [true] [whole]

/-- The byte below is the same, but the descriptors tell the cells apart, and so do the digests. -/
theorem digest_identifies_aboveTagged :
    tagged.bits.toTaggedBytes = whole.bits.toTaggedBytes ∧
      NoCollisions [aboveTagged, aboveWhole] ∧
      (aboveTagged.digest = aboveWhole.digest ↔ aboveTagged = aboveWhole) ∧
      aboveTagged.ShallowRefs ∧ aboveTagged.preimage = (link (data [true]) tagged).preimage ∧
      aboveTagged.bits = (link (data [true]) tagged).bits ∧
      aboveTagged.refs.length = (link (data [true]) tagged).refs.length ∧
      aboveTagged.refs.map depth = (link (data [true]) tagged).refs.map depth ∧
      aboveTagged.refs.map digest = (link (data [true]) tagged).refs.map digest := by
  have hcapacity (c : Cell) (hc : c = tagged ∨ c = whole) : (mk [true] [c]).InCapacity := by
    have hbelow : c.InCapacity := by
      rcases hc with rfl | rfl
      · exact .intro (by decide) nofun
      · exact .intro (by decide) nofun
    exact .intro (by simp [Fits, maxBits, maxRefs]) (by simpa using hbelow)
  have hcollisions : NoCollisions [aboveTagged, aboveWhole] := by
    have hdistinct := distinctDigestsFrom_of_closed [aboveTagged, aboveWhole]
      [aboveTagged, aboveWhole, tagged, whole] (by decide +kernel) (by decide +kernel)
      (by decide +kernel)
    intro c d hc hd heq
    rw [← digest_eq, ← digest_eq] at heq
    rw [hdistinct c d hc hd heq]
  have hshallow : aboveTagged.ShallowRefs := by
    intro r hr
    obtain rfl : r = tagged := by simpa [aboveTagged] using hr
    decide +kernel
  have hidentifies := digest_identifies
  refine ⟨by decide, hcollisions, ?_, hshallow, rfl, ?_⟩
  · exact hidentifies.2.2 _ _ (hcapacity tagged (.inl rfl)) (hcapacity whole (.inr rfl)) hcollisions
  · exact hidentifies.2.1 _ _ (hcapacity tagged (.inl rfl)).fits (hcapacity tagged (.inl rfl)).fits
      hshallow hshallow rfl

end Cell

end CellCode
