import LemonCore.Kernel.UserPointers

/-!
# The bytes of a user buffer

`translated_byte_buffer` cuts a buffer into slices, one for each page.  Its loop goes on from the end of a
slice, which is a `VirtAddr` of 39 bits, to a `usize` with the sign extended, and compares that with the end
of the buffer, which is not masked.

* `InHalf`: a range of addresses that lies in one half of the 64-bit address space;
* `bufferLoop_turn`: one turn of the loop takes the rest of the page or the rest of the buffer;
* `bufferLoop_bytes`: the slices, put one behind the other, are the bytes of the range;
* `translated_byte_buffer_bytes`: the same of the function, for every buffer of canonical addresses.
-/

namespace LemonCore.Kernel.Mm

variable {pt : PageTable} {p : Phys} {fuel start stop addr ptr len : ℕ}

/-- The addresses from `start` to before `stop` are canonical, and lie in one half.  The lower half may be
used to its end, and of the upper half the end is not an address. -/
def InHalf (start stop : ℕ) : Prop := stop ≤ 2 ^ 38 ∨ 2 ^ 64 - 2 ^ 38 ≤ start ∧ stop < 2 ^ 64

/-- The number of bytes that one turn takes. -/
def turnSize (start stop : ℕ) : ℕ := min (pageSize - start % pageSize) (stop - start)

theorem turnSize_pos (h : start < stop) : 0 < turnSize start stop := by
  have hoff := Nat.mod_lt start (show 0 < pageSize by decide)
  rw [turnSize]
  omega

theorem offsetOf_eq (addr : ℕ) : offsetOf addr = addr % pageSize :=
  Nat.mod_mod_of_dvd addr (by decide)

/-- **One turn of the loop**: the bounds of the slice, and where the loop goes on. -/
theorem bufferLoop_turn (h : InHalf start stop) (hlt : start < stop) :
    sliceOf start stop = some (start % pageSize, start % pageSize + turnSize start stop) ∧
      (start + turnSize start stop < stop → usizeOfVa (partEnd start stop) = start + turnSize start stop) ∧
      (start + turnSize start stop = stop → stop ≤ usizeOfVa (partEnd start stop)) := by
  have hend : partEnd start stop = min ((start % 2 ^ 39 / 4096 + 1) * 4096) (stop % 2 ^ 39) := rfl
  have hsize : turnSize start stop = min (4096 - start % 4096) (stop - start) := rfl
  have hhigh : partHigh start stop = start % pageSize + turnSize start stop := by
    rw [partHigh, hend, hsize, pageSize]
    rw [InHalf] at h
    split <;> omega
  refine ⟨?_, ?_, ?_⟩
  · rw [sliceOf, offsetOf_eq, hhigh, if_pos (Nat.le_add_right _ _)]
  · intro hmore
    rcases h with hlow | ⟨hstart, hstop⟩
    · have hpart : partEnd start stop = start + turnSize start stop := by omega
      rw [hpart]
      exact usizeOfVa_low (by omega)
    · have hpart : partEnd start stop + (2 ^ 64 - 2 ^ 39) = start + turnSize start stop := by omega
      rw [usizeOfVa_high (by omega) (by omega), hpart]
  · intro hlast
    rcases h with hlow | ⟨hstart, hstop⟩
    · have hpart : partEnd start stop = stop := by omega
      rw [hpart]
      rcases Nat.lt_or_eq_of_le hlow with hlow | htop
      · exact (usizeOfVa_low hlow).ge
      · -- the end of the lower half is taken for an address of the upper half
        rw [htop, usizeOfVa_high le_rfl (by decide)]
        decide
    · have hpart : partEnd start stop + (2 ^ 64 - 2 ^ 39) = stop := by omega
      rw [usizeOfVa_high (by omega) (by omega), hpart]

/-- The sizes of the slices of a range: each but the last goes to the end of its page. -/
def PageCuts (stop : ℕ) : ℕ → List ℕ → Prop
  | start, [] => stop ≤ start
  | start, size :: sizes => start < stop ∧ size = turnSize start stop ∧ PageCuts stop (start + size) sizes

theorem PageCuts.pos {sizes : List ℕ} :
    ∀ {start : ℕ}, PageCuts stop start sizes → ∀ size ∈ sizes, 0 < size := by
  induction sizes with
  | nil => exact fun _ size hno => absurd hno List.not_mem_nil
  | cons size sizes ih =>
    rintro start ⟨hlt, hsize, hrest⟩
    exact List.forall_mem_cons.mpr ⟨hsize ▸ turnSize_pos hlt, ih hrest⟩

/-- The physical addresses of the bytes of a location, in order. -/
def Location.bytes (loc : Location) : List ℕ := List.range' loc.addr loc.size

/-- The bytes of slices that follow one another. -/
def bytesOf (locs : List Location) : List ℕ := locs.flatMap Location.bytes

theorem length_bytesOf (locs : List Location) : (bytesOf locs).length = (locs.map (·.size)).sum := by
  rw [bytesOf, List.length_flatMap]
  congr 1
  apply List.map_congr_left
  intro loc _
  exact List.length_range'

theorem turn_page {i : ℕ} (hi : i < turnSize start stop) :
    vpnOf (start + i) = vpnOf start ∧ offsetOf (start + i) = start % pageSize + i := by
  have hsize : turnSize start stop = min (4096 - start % 4096) (stop - start) := rfl
  have hpage : pageSize = 4096 := rfl
  rw [vpnOf, vpnOf, offsetOf_eq, pageFloor, pageFloor, hpage]
  omega

theorem turn_bytes {e : ℕ} (he : pt.translate p (vpnOf start) = some e) :
    (List.range' (ptePpn e * pageSize + start % pageSize) (turnSize start stop)).map some =
      (List.range' start (turnSize start stop)).map (pt.translateVa p) := by
  apply List.ext_getElem?
  intro i
  by_cases hi : i < turnSize start stop
  · obtain ⟨hvpn, hoff⟩ := turn_page hi
    have hpa : pt.translateVa p (start + i) = some (ptePpn e * pageSize + start % pageSize + i) := by
      apply translateVa_eq_some.mpr
      refine ⟨e, by rw [hvpn, he], ?_⟩
      rw [hoff, Nat.add_assoc]
    simp only [List.getElem?_map, List.getElem?_range' hi, Nat.one_mul, Option.map_some, hpa]
  · rw [List.getElem?_eq_none, List.getElem?_eq_none]
    · simpa using hi
    · simpa using hi

theorem bufferLoop_done (h : ¬ start < stop) : bufferLoop pt p stop fuel start = some [] := by
  cases fuel with
  | zero => rw [bufferLoop, if_neg h]
  | succ fuel => rw [bufferLoop, if_neg h]

/-- **The loop gives the bytes of the range**, by induction on a bound of its length. -/
theorem bufferLoop_bytes (pt : PageTable) (p : Phys) (n : ℕ) :
    ∀ {start : ℕ}, InHalf start stop → stop - start ≤ n →
    (∀ a, start ≤ a → a < stop → (pt.translate p (vpnOf a)).isSome) →
    ∃ locs, (∀ fuel, n ≤ fuel → bufferLoop pt p stop fuel start = some locs) ∧
      PageCuts stop start (locs.map (·.size)) ∧
      (bytesOf locs).map some = (List.range' start (stop - start)).map (pt.translateVa p) := by
  induction n with
  | zero =>
    intro start _ hn _
    refine ⟨[], fun fuel _ => bufferLoop_done (by omega), Nat.sub_eq_zero_iff_le.mp (Nat.le_zero.mp hn), ?_⟩
    rw [Nat.le_zero.mp hn]
    rfl
  | succ n ih =>
    intro start hhalf hn hmapped
    by_cases hlt : start < stop
    · obtain ⟨hslice, hmore, hlast⟩ := bufferLoop_turn hhalf hlt
      obtain ⟨e, he⟩ := Option.isSome_iff_exists.mp (hmapped start le_rfl hlt)
      have hpos := turnSize_pos hlt
      have hle : turnSize start stop ≤ stop - start := Nat.min_le_right _ _
      -- what the rest of the loop gives, from the end of this slice on
      have hrest : ∃ locs, (∀ fuel, n ≤ fuel →
          bufferLoop pt p stop fuel (usizeOfVa (partEnd start stop)) = some locs) ∧
          PageCuts stop (start + turnSize start stop) (locs.map (·.size)) ∧ (bytesOf locs).map some =
            (List.range' (start + turnSize start stop) (stop - start - turnSize start stop)).map
              (pt.translateVa p) := by
        rcases Nat.lt_or_eq_of_le (show start + turnSize start stop ≤ stop by omega) with hin | hend
        · rw [hmore hin, Nat.sub_sub]
          apply ih
          · exact hhalf.imp id fun h => ⟨by omega, h.2⟩
          · omega
          · exact fun a ha => hmapped a (by omega)
        · refine ⟨[], fun fuel _ => bufferLoop_done (Nat.not_lt.mpr (hlast hend)), hend.ge, ?_⟩
          rw [show stop - start - turnSize start stop = 0 by omega]
          rfl
      obtain ⟨locs, hloop, hcuts, hbytes⟩ := hrest
      let loc : Location := ⟨vpnOf start, ptePpn e * pageSize + start % pageSize, turnSize start stop⟩
      refine ⟨loc :: locs, ?_, ?_, ?_⟩
      · intro fuel hfuel
        cases fuel with
        | zero => exact absurd hfuel (Nat.not_succ_le_zero n)
        | succ fuel =>
          rw [bufferLoop, if_pos hlt, he, hslice]
          show (bufferLoop pt p stop fuel _).bind _ = _
          rw [hloop fuel (Nat.le_of_succ_le_succ hfuel), Nat.add_sub_cancel_left]
          rfl
      · exact ⟨hlt, rfl, hcuts⟩
      · calc (bytesOf (loc :: locs)).map some
            = loc.bytes.map some ++ (bytesOf locs).map some := by
              rw [bytesOf, List.flatMap_cons, List.map_append]
              rfl
          _ = (List.range' start (turnSize start stop)).map (pt.translateVa p) ++
                (List.range' (start + turnSize start stop) (stop - start - turnSize start stop)).map
                  (pt.translateVa p) := by rw [hbytes, ← turn_bytes he]; rfl
          _ = (List.range' start (stop - start)).map (pt.translateVa p) := by
              rw [← List.map_append, List.range'_append_1, Nat.add_sub_cancel' hle]
    · refine ⟨[], fun fuel _ => bufferLoop_done hlt, Nat.le_of_not_lt hlt, ?_⟩
      rw [show stop - start = 0 by omega]
      rfl

/-- A canonical address of SV39: the upper bits are equal to bit 38. -/
def Canonical (addr : ℕ) : Prop := addr < 2 ^ 38 ∨ 2 ^ 64 - 2 ^ 38 ≤ addr ∧ addr < 2 ^ 64

instance : DecidablePred Canonical := fun _ => inferInstanceAs (Decidable (_ ∨ _))

theorem inHalf_of_canonical (hwrap : ptr + len < 2 ^ 64) (hlen : 0 < len)
    (h : ∀ i, i < len → Canonical (ptr + i)) : InHalf ptr (ptr + len) := by
  rcases h 0 hlen with hlow | ⟨hhigh, -⟩
  · left
    by_contra hcross
    -- the first address behind the lower half is in the buffer
    have hgap := h (2 ^ 38 - ptr) (by omega)
    rw [Canonical] at hgap
    omega
  · exact Or.inr ⟨hhigh, hwrap⟩

theorem translatedByteBuffer_cuts (token : ℕ) (p : Phys) (hwrap : ptr + len < 2 ^ 64)
    (hcanonical : ∀ i, i < len → Canonical (ptr + i))
    (hmapped : ∀ i, i < len → ((PageTable.fromToken token).translate p (vpnOf (ptr + i))).isSome) :
    ∃ locs, (∀ fuel, len ≤ fuel → translatedByteBuffer fuel token p ptr len = some locs) ∧
      PageCuts (ptr + len) ptr (locs.map (·.size)) ∧
      (bytesOf locs).map some = (List.range' ptr len).map ((PageTable.fromToken token).translateVa p) := by
  simp only [translatedByteBuffer, Nat.mod_eq_of_lt hwrap]
  cases len with
  | zero => exact ⟨[], fun fuel _ => bufferLoop_done (lt_irrefl _), le_rfl, rfl⟩
  | succ len =>
    have hloop := bufferLoop_bytes (.fromToken token) p (len + 1)
      (inHalf_of_canonical hwrap (Nat.succ_pos len) hcanonical) (by omega) ?_
    · rwa [Nat.add_sub_cancel_left] at hloop
    · intro a ha hlt
      have := hmapped (a - ptr) (by omega)
      rwa [Nat.add_sub_cancel' ha] at this

/-- **The slices of a buffer are its bytes.**  For a buffer of canonical addresses in mapped pages whose end
does not wrap, the loop ends, no slice is empty, and byte `i` of the slices is the one that `translate_va`
finds for `ptr + i`.  An end at exactly `2 ^ 64` wraps: see `translatedByteBuffer_wrapped`. -/
theorem translated_byte_buffer_bytes (token : ℕ) (p : Phys) (hwrap : ptr + len < 2 ^ 64)
    (hcanonical : ∀ i, i < len → Canonical (ptr + i))
    (hmapped : ∀ i, i < len → ((PageTable.fromToken token).translate p (vpnOf (ptr + i))).isSome) :
    ∃ locs, (∀ fuel, len ≤ fuel → translatedByteBuffer fuel token p ptr len = some locs) ∧
      (∀ loc ∈ locs, 0 < loc.size) ∧ (locs.map (·.size)).sum = len ∧
      ∀ i, i < len → (bytesOf locs)[i]? = (PageTable.fromToken token).translateVa p (ptr + i) := by
  obtain ⟨locs, hloop, hcuts, hmap⟩ := translatedByteBuffer_cuts token p hwrap hcanonical hmapped
  refine ⟨locs, hloop, fun loc hloc => hcuts.pos _ (List.mem_map_of_mem hloc), ?_, ?_⟩
  · have hlength := congrArg List.length hmap
    rwa [List.length_map, List.length_map, List.length_range', length_bytesOf] at hlength
  · intro i hi
    have hat := congrArg (fun l => l[i]?) hmap
    simp only [List.getElem?_map, List.getElem?_range' hi, Nat.one_mul, Option.map_some] at hat
    cases hb : (bytesOf locs)[i]? with
    | none => rw [hb] at hat; cases hat
    | some b =>
      rw [hb] at hat
      exact Option.some.inj hat

/-- Pages 5 and 6 lie on frames 77 and 80. -/
def twoPages : Option (PageTable × Phys) := do
  let (pt, p) ← PageTable.new ⟨.init 0 8 (by decide) (by decide), fun _ _ => 0⟩
  let (pt, p) ← pt.map p 5 77 pteR
  pt.map p 6 80 pteR

/-- The last 96 bytes of page 5 and the first 96 bytes of page 6. -/
theorem translated_byte_buffer_two_pages : ∃ pt p locs, twoPages = some (pt, p) ∧
    (∀ fuel, 192 ≤ fuel → translatedByteBuffer fuel pt.token p (6 * pageSize - 96) 192 = some locs) ∧
      (locs.map (·.size)).sum = 192 ∧ (bytesOf locs)[95]? = some (78 * pageSize - 1) ∧
      (bytesOf locs)[96]? = some (80 * pageSize) := by
  have hpages : ∃ x ∈ twoPages, ((PageTable.fromToken x.1.token).translate x.2 5).isSome ∧
      ((PageTable.fromToken x.1.token).translate x.2 6).isSome ∧
      (PageTable.fromToken x.1.token).translateVa x.2 (6 * pageSize - 1) = some (78 * pageSize - 1) ∧
      (PageTable.fromToken x.1.token).translateVa x.2 (6 * pageSize) = some (80 * pageSize) := by
    decide +kernel
  obtain ⟨⟨pt, p⟩, hx, hfive, hsix, hlast, hfirst⟩ := hpages
  have hpage : pageSize = 4096 := rfl
  have hmapped : ∀ i, i < 192 →
      ((PageTable.fromToken pt.token).translate p (vpnOf (6 * pageSize - 96 + i))).isSome := by
    intro i hi
    have hvpn : vpnOf (6 * pageSize - 96 + i) = if i < 96 then 5 else 6 := by
      rw [vpnOf, pageFloor, hpage]
      split <;> omega
    rw [hvpn]
    split
    · exact hfive
    · exact hsix
  obtain ⟨locs, hloop, -, hsum, hbytes⟩ := translated_byte_buffer_bytes pt.token p (by decide)
    (fun i hi => Or.inl (by rw [hpage]; omega)) hmapped
  exact ⟨pt, p, locs, hx, hloop, hsum, (hbytes 95 (by decide)).trans hlast,
    (hbytes 96 (by decide)).trans hfirst⟩

/-- The last address of all is out of reach: the end of a buffer that contains it wraps to 0, and nothing is
given. -/
theorem translatedByteBuffer_wrapped (fuel token : ℕ) (p : Phys) (h : ptr + len = 2 ^ 64) :
    translatedByteBuffer fuel token p ptr len = some [] := by
  rw [translatedByteBuffer, h, Nat.mod_self]
  exact bufferLoop_done (Nat.not_lt_zero ptr)

end LemonCore.Kernel.Mm
