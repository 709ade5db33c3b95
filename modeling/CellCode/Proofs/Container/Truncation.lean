import CellCode.Proofs.Cell.Traversal
import CellCode.Proofs.Container.RoundTrip
import CellCode.Proofs.Container.Safety

/-!
# Truncated containers are refused

A step of reading looks at no more bytes than it takes. So when more bytes follow it finds what it
found without them, and it can only be stopped for want of bytes where more of them would have
helped. A container that was cut off somewhere is read as the whole one is, up to the cut: the
reader runs into the end of the bytes, since it would have taken every byte of the whole.

## Key results

- `Steady`: more bytes behind those that are there change nothing
- `steady_content`: the reader of containers is such a step
- `Steady.unexpectedEnd`: a step that takes all bytes runs into the end of any cut
- `read_truncated`: a container without its last bytes ends too early
-/

namespace CellCode.Container

-- Powers are those of the standard library, whatever else is in scope.
attribute [local instance (high)] instPowNat

/-- The cursor with more bytes behind those not yet read. -/
def Cursor.extend (c : Cursor) (more : List UInt8) : Cursor := { c with rest := c.rest ++ more }

/-- The step looks only at the bytes it takes: with more bytes at the end it finds the same, and it
    fails in the same way unless it ran into the end. -/
structure Steady {α : Type} (step : Read α) : Prop where
  found : ∀ c a c', step.run c = .ok (a, c') →
    ∀ more, step.run (c.extend more) = .ok (a, c'.extend more)
  failed : ∀ c e, step.run c = .error e →
    (∃ position, e = .unexpectedEnd position) ∨ ∀ more, step.run (c.extend more) = .error e

variable {α β : Type}

/-! ## Steps and their parts -/

theorem steady_pure (a : α) : Steady (pure a : Read α) where
  found := by
    intro c a' c' h more
    cases h
    rfl
  failed := by
    intro c e h
    cases h

theorem steady_throw (e : ContainerError) : Steady (throw e : Read α) where
  found := by
    intro c a c' h
    cases h
  failed := by
    intro c e' h
    cases h
    exact .inr fun more => rfl

/-- Two steady steps after each other are steady. -/
theorem Steady.bind {step : Read α} {next : α → Read β} (h : Steady step)
    (hnext : ∀ a, Steady (next a)) : Steady (step >>= next) where
  found := by
    intro c b c' hrun more
    rw [run_bind_eq_ok] at hrun ⊢
    obtain ⟨a, d, hstep, hrun⟩ := hrun
    exact ⟨a, d.extend more, h.found c a d hstep more, (hnext a).found d b c' hrun more⟩
  failed := by
    intro c e hrun
    rw [StateT.run_bind, bind_eq_error] at hrun
    simp only [StateT.run_bind, bind_eq_error]
    -- Where the second step fails, the first one has gone the same way with more bytes.
    rcases hrun with hstep | ⟨⟨a, d⟩, hstep, hrun⟩
    · rcases h.failed c e hstep with hend | hsame
      · exact .inl hend
      · exact .inr fun more => .inl (hsame more)
    · rcases (hnext a).failed d e hrun with hend | hsame
      · exact .inl hend
      · exact .inr fun more => .inr ⟨(a, d.extend more), h.found c a d hstep more, hsame more⟩

/-- A choice between steady steps is steady. -/
theorem Steady.ite {p : Prop} [Decidable p] {step other : Read α} (h : Steady step)
    (h' : Steady other) : Steady (if p then step else other) := by
  split
  · exact h
  · exact h'

/-- More items behind go to what is left over. -/
theorem splitExactly_extend (n : Nat) (items front rest more : List α)
    (h : splitExactly n items = some (front, rest)) :
    splitExactly n (items ++ more) = some (front, rest ++ more) := by
  induction n generalizing items front with
  | zero =>
    cases h
    rfl
  | succ n ih =>
    cases items with
    | nil => cases h
    | cons item items =>
      obtain ⟨⟨front', rest'⟩, hsplit, heq⟩ := Option.map_eq_some_iff.mp h
      cases heq
      rw [List.cons_append, splitExactly, ih items front' hsplit]
      rfl

/-- Bytes that are there are taken, and otherwise the end is run into. -/
theorem steady_take (n : Nat) : Steady (take n) where
  found := by
    intro c bytes c' h more
    -- The step takes the bytes off the cursor, if there are enough of them.
    rw [take, run_bind_eq_ok] at h ⊢
    obtain ⟨cursor, d, hget, h⟩ := h
    cases hget
    split at h
    · cases h
    · rename_i front rest hsplit
      cases h
      refine ⟨_, _, rfl, ?_⟩
      have hextend := splitExactly_extend n c.rest bytes rest more hsplit
      simp only [Cursor.extend, hextend]
      rfl
  failed := by
    intro c e h
    rw [take, StateT.run_bind, bind_eq_error] at h
    rcases h with h | ⟨⟨cursor, d⟩, hget, h⟩
    · cases h
    · cases hget
      dsimp only at h
      split at h
      · cases h
        exact .inl ⟨_, rfl⟩
      · cases h

theorem steady_check {p : Prop} [Decidable p] (e : ContainerError) {next : PUnit → Read α}
    (h : Steady (next ⟨⟩)) : Steady (if p then throw e >>= next else next ⟨⟩) :=
  ((steady_throw e).bind fun _ => h).ite h

theorem steady_number (width : Nat) : Steady (number width) :=
  (steady_take width).bind fun _ => steady_pure _

/-- A steady step may be repeated. -/
theorem steady_many {item : Read α} (h : Steady item) (n : Nat) : Steady (many item n) := by
  induction n with
  | zero => exact steady_pure []
  | succ n ih => exact h.bind fun _ => ih.bind fun _ => steady_pure _

/-! ## Containers -/

/-- A cell is two numbers, its bits in bytes and the numbers of its references. -/
theorem steady_rawCell (width : Nat) : Steady (rawCell width) := by
  unfold rawCell
  refine (steady_number 1).bind fun d1 => (steady_number 1).bind fun d2 => ?_
  apply steady_check
  apply steady_check
  refine (steady_take _).bind fun bytes => ?_
  have hrefs (bits : Bits) : Steady
      (many (number width) (d1 % 8) >>= fun refs => pure (RawCell.mk bits refs)) :=
    (steady_many (steady_number width) _).bind fun _ => steady_pure _
  apply Steady.ite
  · -- The last byte is tagged.
    cases (Bits.ofBytes bytes).untag? with
    | none => exact (steady_throw _).bind hrefs
    | some bits => exact (steady_pure bits).bind hrefs
  · exact (steady_pure _).bind hrefs

/-- The reader of containers is steady up to the checksum. -/
theorem steady_content : Steady content := by
  unfold content
  -- Checks look only at what was found before, so each of them goes the same way.
  refine (steady_take 4).bind fun start => ?_
  apply steady_check
  refine (steady_number 1).bind fun flags => ?_
  apply steady_check
  refine (steady_number 1).bind fun sizeWidth => ?_
  apply steady_check
  refine (steady_number _).bind fun cellCount => (steady_number _).bind fun rootCount =>
    (steady_number _).bind fun absent => ?_
  apply steady_check
  refine (steady_number _).bind fun _ =>
    (steady_many (steady_number _) rootCount).bind fun roots => ?_
  have hcells : Steady (many (rawCell (flags % 8)) cellCount >>= fun cells =>
      pure (roots, cells, decide (flags / 64 % 2 = 1))) :=
    (steady_many (steady_rawCell _) _).bind fun _ => steady_pure _
  exact ((steady_take _).bind fun _ => hcells).ite hcells

/-- A step that takes all of some bytes runs into the end of any front of them. -/
theorem Steady.unexpectedEnd {step : Read α} {bytes : List UInt8} {a : α} (h : Steady step)
    (hreads : Reads step bytes a) (position : Nat) (front more : List UInt8)
    (hbytes : front ++ more = bytes) (hne : more ≠ []) :
    ∃ position', step.run ⟨position, front⟩ = .error (.unexpectedEnd position') := by
  have hall := hreads position []
  rw [List.append_nil, ← hbytes] at hall
  -- With the missing bytes it would find the content, so what it found without them must agree.
  cases hrun : step.run ⟨position, front⟩ with
  | error e =>
    rcases h.failed _ e hrun with ⟨position', rfl⟩ | hsame
    · exact ⟨position', rfl⟩
    · have herror := hsame more
      rw [Cursor.extend, hall] at herror
      cases herror
  | ok result =>
    -- The bytes that are missing would be left over.
    have hfound := h.found _ _ _ hrun more
    rw [Cursor.extend, hall] at hfound
    have hrest := congrArg Cursor.rest (congrArg Prod.snd (Except.ok.inj hfound))
    exact absurd (List.append_eq_nil_iff.mp hrest.symm).2 hne

/-- A container that was cut off before its end is refused because it ends too early. -/
theorem read_truncated (roots : List Cell) (checksum : Bool) (bytes : List UInt8)
    (hcapacity : ∀ r ∈ roots, r.InCapacity) (hcount : (Cell.parentsFirst roots).length < 2 ^ 32)
    (h : write roots checksum = .ok bytes) (front : List UInt8) (hfront : front <+: bytes)
    (hne : front ≠ bytes) : ∃ position, read front = .error (.unexpectedEnd position) := by
  obtain ⟨hroots, hfew, rfl⟩ := of_write_eq_ok roots checksum bytes h
  obtain ⟨more, hmore⟩ := hfront
  have hmore' : more ≠ [] := by
    rintro rfl
    exact hne (by rw [← hmore, List.append_nil])
  have hcontent := reads_content (Cell.parentsFirst_ne_nil roots hroots)
    (fits_parentsFirst hcapacity) checksum hcount hfew
  generalize body (Cell.parentsFirst roots) roots checksum = bytes at hcontent hmore
  cases checksum with
  | false =>
    obtain ⟨position, hrun⟩ := steady_content.unexpectedEnd hcontent 0 front more hmore hmore'
    exact ⟨position, by rw [read, hrun]; rfl⟩
  | true =>
    rw [if_pos rfl] at hmore
    generalize hsum : littleEndian 4 (Checksum.crc32c bytes).toNat = sum at hmore
    -- Content and checksum together are what the reader takes.
    have hsumLength : sum.length = 4 := by rw [← hsum, length_littleEndian]
    have hboth : Reads (content >>= fun found => take 4 >>= fun sum => pure (found, sum))
        (bytes ++ sum) (_, sum) :=
      hcontent.bind ((reads_take 4 sum hsumLength).bind_pure (Reads.pure _))
    have hsteady : Steady (content >>= fun found => take 4 >>= fun sum => pure (found, sum)) :=
      steady_content.bind fun _ => (steady_take 4).bind fun _ => steady_pure _
    obtain ⟨position, hrun⟩ := hsteady.unexpectedEnd hboth 0 front more hmore hmore'
    rw [StateT.run_bind, bind_eq_error] at hrun
    rcases hrun with hrun | ⟨⟨found, d⟩, hfound, hrun⟩
    · exact ⟨position, by rw [read, hrun]; rfl⟩
    · -- The content was found as it was written, so a checksum follows.
      have hsame := steady_content.found _ _ _ hfound more
      rw [Cursor.extend, hmore, hcontent 0 sum] at hsame
      obtain rfl := congrArg Prod.fst (Except.ok.inj hsame)
      rw [StateT.run_bind, bind_eq_error] at hrun
      rcases hrun with hrun | ⟨_, _, hrun⟩
      · refine ⟨position, ?_⟩
        rw [read, hfound]
        show ((take 4).run d >>= _) = _
        rw [hrun]
        rfl
      · cases hrun

/-- The two cells of the nested roots make a container. -/
theorem write_nestedRoots : write Cell.nestedRoots true =
    .ok (body (Cell.parentsFirst Cell.nestedRoots) Cell.nestedRoots true ++
      littleEndian 4 (Checksum.crc32c
        (body (Cell.parentsFirst Cell.nestedRoots) Cell.nestedRoots true)).toNat) := by
  have hfew : Cell.nestedRoots.length <
      256 ^ byteWidth (Cell.parentsFirst Cell.nestedRoots).length := by
    rw [Cell.parentsFirst_nestedRoots, byteWidth]
    decide
  exact write_eq_ok Cell.nestedRoots true (by simp [Cell.nestedRoots]) hfew

/-- A container with a checksum is refused even if only its last byte is missing. -/
theorem read_truncated_nestedRoots :
    (∀ r ∈ Cell.nestedRoots, r.InCapacity) ∧
      (Cell.parentsFirst Cell.nestedRoots).length < 2 ^ 32 ∧
      ∃ bytes, write Cell.nestedRoots true = .ok bytes ∧ bytes.dropLast <+: bytes ∧
        bytes.dropLast ≠ bytes ∧
        ∃ position, read bytes.dropLast = .error (.unexpectedEnd position) := by
  have hcount : (Cell.parentsFirst Cell.nestedRoots).length < 2 ^ 32 := by
    simp [Cell.parentsFirst_nestedRoots]
  have hne (bytes : List UInt8) (h : write Cell.nestedRoots true = .ok bytes) :
      bytes.dropLast ≠ bytes := by
    rw [write_nestedRoots] at h
    cases h
    intro heq
    have hlength := congrArg List.length heq
    simp [body, magic] at hlength
  exact ⟨Cell.nestedRoots_inCapacity, hcount, _, write_nestedRoots, List.dropLast_prefix _,
    hne _ write_nestedRoots,
    read_truncated _ true _ Cell.nestedRoots_inCapacity hcount write_nestedRoots _
      (List.dropLast_prefix _) (hne _ write_nestedRoots)⟩

end CellCode.Container
