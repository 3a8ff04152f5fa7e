import LemonCore.Kernel.AddressSpaces
import LemonCore.Kernel.AreaEntries

/-!
# Pointers of user programs

The system calls get at the memory of a program through four functions of `mm/mod.rs`, which walk the page
table of the program by hand: `translated_byte_buffer`, `translated_str`, `translated_ref` and
`translated_mut_ref`.

* `Location`: bytes of physical memory that the kernel is given, with the page that was asked for;
* `translatedByteBuffer`, `translatedStr`, `translatedRef`, `translatedMutRef`: as the source has them.  The
  two loops take fuel: a loop over a buffer that does not end fills the heap, and the kernel panics;
* `Location.InUserPage`: the location lies in the frame of a valid entry with the flag `U`;
* `pagesOf`: the pages that the loop over a buffer asks for, which only depend on its addresses;
* `translate_some_iff_mapped_iff`: which unmapped pages `translate` and `translate_va` tell apart;
* `translated_in_user_pages_iff`: the walk looks at the flags of the tables above only.  So the locations
  are in user pages exactly if all pages asked for are, or one of them is not even in a table.
-/

namespace LemonCore.Kernel.Mm

variable {loc : Location} {a b : ℕ}

/-! ### The model -/

/-- Bytes of physical memory.  The page that was asked for is not in the code. -/
structure Location where
  vpn : ℕ
  addr : ℕ
  size : ℕ
  deriving DecidableEq

/-- `PageTable::token`. -/
def PageTable.token (pt : PageTable) : ℕ := 8 <<< 60 ||| pt.rootPpn

/-- `PageTable::from_token`. -/
def PageTable.fromToken (satp : ℕ) : PageTable := ⟨satp % 2 ^ 44, [], []⟩

/-- The page of an address: `VirtAddr::from` and `as_vpn_by_floor`. -/
def vpnOf (addr : ℕ) : ℕ := pageFloor (addr % 2 ^ 39)

/-- `usize::from` on a `VirtAddr`: the sign is extended. -/
def usizeOfVa (va : ℕ) : ℕ := if 2 ^ 38 ≤ va then va ||| (2 ^ 64 - 2 ^ 39) else va

/-- The end of the part of a buffer that lies in the page of `start`. -/
def partEnd (start stop : ℕ) : ℕ := min ((vpnOf start + 1) * pageSize) (stop % 2 ^ 39)

/-- The page offset of that end, unless it is zero: the slice then goes to the end of the page. -/
def partHigh (start stop : ℕ) : ℕ :=
  if partEnd start stop % pageSize = 0 then pageSize else partEnd start stop % pageSize

/-- The page offset of an address. -/
def offsetOf (addr : ℕ) : ℕ := addr % 2 ^ 39 % pageSize

/-- The bounds of the slice for that part; the slice panics if they are in the wrong order. -/
def sliceOf (start stop : ℕ) : Option (ℕ × ℕ) :=
  if offsetOf start ≤ partHigh start stop then some (offsetOf start, partHigh start stop) else none

/-- The loop of `translated_byte_buffer`. -/
def bufferLoop (pt : PageTable) (p : Phys) (stop : ℕ) : ℕ → ℕ → Option (List Location)
  | 0, start => if start < stop then none else some []
  | fuel + 1, start =>
    if start < stop then do
      let pte ← pt.translate p (vpnOf start)
      let (low, high) ← sliceOf start stop
      let rest ← bufferLoop pt p stop fuel (usizeOfVa (partEnd start stop))
      some (⟨vpnOf start, ptePpn pte * pageSize + low, high - low⟩ :: rest)
    else some []

/-- `translated_byte_buffer`. -/
def translatedByteBuffer (fuel token : ℕ) (p : Phys) (ptr len : ℕ) : Option (List Location) :=
  bufferLoop (.fromToken token) p ((ptr + len) % 2 ^ 64) fuel ptr

/-- `translate_va` on the `VirtAddr` of an address. -/
def PageTable.translateVa (pt : PageTable) (p : Phys) (addr : ℕ) : Option ℕ :=
  (pt.translate p (vpnOf addr)).map fun e => (ptePpn e * pageSize + offsetOf addr) % 2 ^ 56

/-- `translate_va(..).unwrap()` and `as_ref` or `as_mut_ref`, which panic on a null pointer. -/
def locate (pt : PageTable) (p : Phys) (addr size : ℕ) : Option Location := do
  let pa ← pt.translateVa p addr
  if pa = 0 then none else some ⟨vpnOf addr, pa, size⟩

/-- `translated_ref`, for a type of the given size. -/
def translatedRef (token : ℕ) (p : Phys) (ptr size : ℕ) : Option Location :=
  locate (.fromToken token) p ptr size

/-- `translated_mut_ref`. -/
def translatedMutRef (token : ℕ) (p : Phys) (ptr size : ℕ) : Option Location :=
  locate (.fromToken token) p ptr size

/-- The byte at a physical address. -/
def Phys.byte (p : Phys) (addr : ℕ) : ℕ :=
  p.memory (addr / pageSize) (addr % pageSize / 8) / 256 ^ (addr % 8) % 256

/-- The loop of `translated_str`: the locations that it reads, and the characters if it has come to the end
of the string. -/
def strLoop (pt : PageTable) (p : Phys) : ℕ → ℕ → List Location × Option (List ℕ)
  | 0, _ => ([], none)
  | fuel + 1, va =>
    match locate pt p va 1 with
    | none => ([], none)
    | some loc =>
      if p.byte loc.addr = 0 then ([loc], some [])
      else
        let (reads, string) := strLoop pt p fuel ((va + 1) % 2 ^ 64)
        (loc :: reads, string.map (p.byte loc.addr :: ·))

/-- `translated_str`. -/
def translatedStr (fuel token : ℕ) (p : Phys) (ptr : ℕ) : List Location × Option (List ℕ) :=
  strLoop (.fromToken token) p fuel ptr

theorem PageTable.translate_fromToken {pt : PageTable} {p : Phys} (ht : pt.Tables p) (vpn : ℕ) :
    (fromToken pt.token).translate p vpn = pt.translate p vpn := by
  have hroot : pt.rootPpn < 2 ^ 44 :=
    (ht.allocated _ (metadata_mem ht.root_mem)).1.trans_le (p.allocator.current_le.trans p.allocator.end_le)
  have hback : (8 <<< 60 ||| pt.rootPpn) % 2 ^ 44 = pt.rootPpn := by
    rw [Nat.or_mod_two_pow, Nat.mod_eq_of_lt hroot]
    exact Nat.zero_or _
  rw [translate, translate, findPte, findPte, fromToken, token, hback]

/-! ### User pages -/

/-- The page has a valid entry with the flag `U`. -/
def PageTable.UserPage (pt : PageTable) (p : Phys) (vpn : ℕ) : Prop :=
  ∃ e, pt.translate p vpn = some e ∧ isValid e = true ∧ pteFlags e &&& pteU = pteU

/-- The location lies in one frame. -/
def Location.InFrame (loc : Location) (ppn : ℕ) : Prop :=
  ppn * pageSize ≤ loc.addr ∧ loc.addr + loc.size ≤ (ppn + 1) * pageSize

/-- The location lies in the frame of its page, and the page is a user page. -/
def Location.InUserPage (loc : Location) (pt : PageTable) (p : Phys) : Prop :=
  ∃ e, pt.translate p loc.vpn = some e ∧ isValid e = true ∧ pteFlags e &&& pteU = pteU ∧
    loc.InFrame (ptePpn e)

variable {pt : PageTable} {p : Phys} {fuel start stop addr size : ℕ}

theorem Location.InUserPage.userPage (h : loc.InUserPage pt p) :
    pt.UserPage p loc.vpn := by
  obtain ⟨e, he, hv, hu, -⟩ := h
  exact ⟨e, he, hv, hu⟩

theorem Location.InUserPage.of_userPage {e : ℕ} (h : pt.UserPage p loc.vpn)
    (he : pt.translate p loc.vpn = some e) (hin : loc.InFrame (ptePpn e)) : loc.InUserPage pt p := by
  obtain ⟨e', he', hv, hu⟩ := h
  rw [he, Option.some.injEq] at he'
  exact ⟨e, he, he' ▸ hv, he' ▸ hu, hin⟩

/-! ### Buffers -/

/-- The pages that the loop over a buffer asks for. -/
def pagesLoop (stop : ℕ) : ℕ → ℕ → Option (List ℕ)
  | 0, start => if start < stop then none else some []
  | fuel + 1, start =>
    if start < stop then do
      let _ ← sliceOf start stop
      let rest ← pagesLoop stop fuel (usizeOfVa (partEnd start stop))
      some (vpnOf start :: rest)
    else some []

def pagesOf (fuel ptr len : ℕ) : Option (List ℕ) := pagesLoop ((ptr + len) % 2 ^ 64) fuel ptr

theorem sliceOf_le {low high : ℕ} (h : sliceOf start stop = some (low, high)) :
    low ≤ high ∧ high ≤ pageSize := by
  rw [sliceOf] at h
  split at h
  · rename_i hle
    obtain ⟨rfl, rfl⟩ := Prod.mk.inj (Option.some.inj h)
    refine ⟨hle, ?_⟩
    rw [partHigh]
    split
    · exact le_rfl
    · exact (Nat.mod_lt _ (by decide)).le
  · cases h

theorem bufferLoop_given (fuel : ℕ) : ∀ {start : ℕ} {locs : List Location},
    bufferLoop pt p stop fuel start = some locs → pagesLoop stop fuel start = some (locs.map (·.vpn)) ∧
      ∀ loc ∈ locs, ∃ e, pt.translate p loc.vpn = some e ∧ loc.InFrame (ptePpn e) := by
  induction fuel with
  | zero =>
    intro start locs h
    rw [bufferLoop] at h
    split at h
    · cases h
    · rename_i hlt
      obtain rfl := Option.some.inj h
      exact ⟨if_neg hlt, fun loc hloc => absurd hloc List.not_mem_nil⟩
  | succ fuel ih =>
    intro start locs h
    rw [bufferLoop] at h
    split at h
    · rename_i hlt
      simp only [Option.bind_eq_bind, Option.bind_eq_some_iff, Option.some.injEq, Prod.exists] at h
      obtain ⟨e, he, low, high, hslice, rest, hrest, rfl⟩ := h
      obtain ⟨hpages, hgiven⟩ := ih hrest
      obtain ⟨hle, hhigh⟩ := sliceOf_le hslice
      refine ⟨?_, List.forall_mem_cons.mpr ⟨⟨e, he, Nat.le_add_right _ _, ?_⟩, hgiven⟩⟩
      · rw [pagesLoop, if_pos hlt, hslice]
        show (pagesLoop stop fuel _).bind _ = _
        rw [hpages]
        rfl
      · show ptePpn e * pageSize + low + (high - low) ≤ (ptePpn e + 1) * pageSize
        rw [Nat.add_mul]
        omega
    · rename_i hlt
      obtain rfl := Option.some.inj h
      refine ⟨?_, fun loc hloc => absurd hloc List.not_mem_nil⟩
      rw [pagesLoop, if_neg hlt]
      rfl

theorem bufferLoop_returns (fuel : ℕ) : ∀ {start : ℕ} {pages : List ℕ},
    pagesLoop stop fuel start = some pages → (∀ v ∈ pages, pt.translate p v ≠ none) →
      ∃ locs, bufferLoop pt p stop fuel start = some locs := by
  induction fuel with
  | zero =>
    intro start pages h _
    rw [pagesLoop] at h
    split at h
    · cases h
    · rename_i hlt
      exact ⟨[], if_neg hlt⟩
  | succ fuel ih =>
    intro start pages h htab
    rw [pagesLoop] at h
    split at h
    · rename_i hlt
      simp only [Option.bind_eq_bind, Option.bind_eq_some_iff, Option.some.injEq] at h
      obtain ⟨⟨low, high⟩, hslice, rest, hrest, rfl⟩ := h
      obtain ⟨hhead, htail⟩ := List.forall_mem_cons.mp htab
      obtain ⟨e, he⟩ := Option.ne_none_iff_exists'.mp hhead
      obtain ⟨locs, hlocs⟩ := ih hrest htail
      refine ⟨⟨vpnOf start, ptePpn e * pageSize + low, high - low⟩ :: locs, ?_⟩
      rw [bufferLoop, if_pos hlt, he, hslice]
      show (bufferLoop pt p stop fuel _).bind _ = _
      rw [hlocs]
      rfl
    · rename_i hlt
      refine ⟨[], ?_⟩
      rw [bufferLoop, if_neg hlt]

/-- What is given for a buffer is in user pages. -/
def BufferInUser (token : ℕ) (p : Phys) (ptr len : ℕ) : Prop :=
  ∀ fuel locs, translatedByteBuffer fuel token p ptr len = some locs →
    ∀ loc ∈ locs, loc.InUserPage (.fromToken token) p

/-- All pages of the buffer are user pages, or one of them is in no table. -/
def BufferPages (token : ℕ) (p : Phys) (ptr len : ℕ) : Prop :=
  ∀ fuel pages, pagesOf fuel ptr len = some pages →
    (∀ v ∈ pages, (PageTable.fromToken token).UserPage p v) ∨
      ∃ v ∈ pages, (PageTable.fromToken token).translate p v = none

theorem bufferInUser_iff (token : ℕ) (p : Phys) (ptr len : ℕ) :
    BufferInUser token p ptr len ↔ BufferPages token p ptr len := by
  constructor
  · intro h fuel pages hpages
    by_cases htab : ∀ v ∈ pages, (PageTable.fromToken token).translate p v ≠ none
    · left
      obtain ⟨locs, hlocs⟩ := bufferLoop_returns fuel hpages htab
      have hvpns := (bufferLoop_given fuel hlocs).1
      rw [pagesOf, hvpns, Option.some.injEq] at hpages
      intro v hv
      rw [← hpages] at hv
      obtain ⟨loc, hloc, rfl⟩ := List.mem_map.mp hv
      exact (h fuel locs hlocs loc hloc).userPage
    · right
      push Not at htab
      exact htab
  · intro h fuel locs hlocs loc hloc
    obtain ⟨hvpns, hgiven⟩ := bufferLoop_given fuel hlocs
    obtain ⟨e, he, hin⟩ := hgiven loc hloc
    rcases h fuel _ hvpns with huser | ⟨v, hv, hnone⟩
    · exact .of_userPage (huser _ (List.mem_map_of_mem hloc)) he hin
    · obtain ⟨loc', hloc', rfl⟩ := List.mem_map.mp hv
      obtain ⟨e', he', -⟩ := hgiven loc' hloc'
      rw [hnone] at he'
      cases he'

/-! ### Buffers in one half of the address space -/

/-- Two addresses of the lower half, or two of the upper half, of the 39 bits. -/
def SameHalf (a b : ℕ) : Prop := b < 2 ^ 38 ∨ 2 ^ 38 ≤ a ∧ b < 2 ^ 39

theorem usizeOfVa_low {va : ℕ} (h : va < 2 ^ 38) : usizeOfVa va = va := if_neg (Nat.not_le.mpr h)

theorem usizeOfVa_high {va : ℕ} (h : 2 ^ 38 ≤ va) (hlt : va < 2 ^ 39) :
    usizeOfVa va = va + (2 ^ 64 - 2 ^ 39) := by
  have hadd := Nat.shiftLeft_add_eq_or_of_lt hlt (2 ^ 25 - 1)
  have hshift : (2 ^ 25 - 1) <<< 39 = 2 ^ 64 - 2 ^ 39 := by decide
  rw [hshift] at hadd
  rw [usizeOfVa, if_pos h, Nat.or_comm, ← hadd, Nat.add_comm]

/-- The sign extension keeps distances and the lower bits. -/
theorem SameHalf.usize (h : SameHalf a b) (hab : a ≤ b) :
    usizeOfVa b = usizeOfVa a + (b - a) ∧ usizeOfVa b < 2 ^ 64 ∧ usizeOfVa a % 2 ^ 39 = a ∧
      usizeOfVa b % 2 ^ 39 = b := by
  rcases h with hb | ⟨ha, hb⟩
  · rw [usizeOfVa_low hb, usizeOfVa_low (hab.trans_lt hb)]
    omega
  · rw [usizeOfVa_high (ha.trans hab) hb, usizeOfVa_high ha (hab.trans_lt hb)]
    omega

theorem SameHalf.mono {a' : ℕ} (h : SameHalf a b) (ha : a ≤ a') : SameHalf a' b :=
  h.imp id fun h => ⟨h.1.trans ha, h.2⟩

theorem pagesLoop_done {n : ℕ} (h : ¬ start < stop) : pagesLoop stop n start = some [] := by
  cases n with
  | zero => rw [pagesLoop, if_neg h]
  | succ n => rw [pagesLoop, if_neg h]

/-- The loop goes through the pages of the buffer, by induction on the number of pages. -/
theorem pagesLoop_half (n : ℕ) : ∀ {a b : ℕ}, a < b → SameHalf a b → b ≤ (pageFloor a + n) * pageSize →
    ∃ pages, pagesLoop (usizeOfVa b) n (usizeOfVa a) = some pages ∧
      ∀ v, v ∈ pages ↔ pageFloor a ≤ v ∧ v * pageSize < b := by
  induction n with
  | zero =>
    intro a b hab _ hn
    rw [pageFloor, pageSize] at hn
    omega
  | succ n ih =>
    intro a b hab hhalf hn
    obtain ⟨hdist, -, hva, hvb⟩ := hhalf.usize hab.le
    have hlt : usizeOfVa a < usizeOfVa b := by omega
    have hvpn : vpnOf (usizeOfVa a) = pageFloor a := by rw [vpnOf, hva]
    have hend : partEnd (usizeOfVa a) (usizeOfVa b) = min ((pageFloor a + 1) * pageSize) b := by
      rw [partEnd, hvpn, hvb]
    have hslice : ∃ bounds, sliceOf (usizeOfVa a) (usizeOfVa b) = some bounds := by
      have hle : offsetOf (usizeOfVa a) ≤ partHigh (usizeOfVa a) (usizeOfVa b) := by
        rw [offsetOf, hva, partHigh, hend, pageFloor, pageSize]
        split
        · omega
        · rename_i hne
          omega
      exact ⟨_, if_pos hle⟩
    obtain ⟨bounds, hbounds⟩ := hslice
    have hturn : ∀ {rest : List ℕ},
        pagesLoop (usizeOfVa b) n (usizeOfVa (min ((pageFloor a + 1) * pageSize) b)) = some rest →
        pagesLoop (usizeOfVa b) (n + 1) (usizeOfVa a) = some (pageFloor a :: rest) := by
      intro rest hrest
      rw [pagesLoop, if_pos hlt, hbounds, hend, hvpn]
      show (pagesLoop (usizeOfVa b) n _).bind _ = _
      rw [hrest]
      rfl
    by_cases hlast : b ≤ (pageFloor a + 1) * pageSize
    · -- The buffer ends in this page.
      refine ⟨[pageFloor a], hturn ?_, fun v => ?_⟩
      · rw [Nat.min_eq_right hlast]
        exact pagesLoop_done (lt_irrefl _)
      · rw [List.mem_singleton, pageFloor] at *
        rw [pageSize] at *
        omega
    · have hnext : (pageFloor a + 1) * pageSize < b := Nat.not_le.mp hlast
      have ha' : a ≤ (pageFloor a + 1) * pageSize := by
        rw [pageFloor, pageSize]
        omega
      have hfloor : pageFloor ((pageFloor a + 1) * pageSize) = pageFloor a + 1 :=
        Nat.mul_div_cancel _ (by decide)
      obtain ⟨rest, hrest, hmem⟩ := ih hnext (hhalf.mono ha') (by
        rw [hfloor, Nat.add_assoc, Nat.add_comm 1 n]
        exact hn)
      refine ⟨pageFloor a :: rest, hturn (by rw [Nat.min_eq_left hnext.le]; exact hrest), fun v => ?_⟩
      rw [List.mem_cons, hmem v, hfloor]
      have hhere : pageFloor a * pageSize < b :=
        (Nat.mul_le_mul_right pageSize (Nat.le_succ (pageFloor a))).trans_lt hnext
      constructor
      · intro h
        rcases h with h | h
        · exact ⟨h.ge, h ▸ hhere⟩
        · exact ⟨(Nat.le_succ _).trans h.1, h.2⟩
      · intro h
        rcases Nat.eq_or_lt_of_le h.1 with heq | hgt
        · exact Or.inl heq.symm
        · exact Or.inr ⟨hgt, h.2⟩

theorem pagesLoop_unique (n : ℕ) : ∀ {m start : ℕ} {l l' : List ℕ}, pagesLoop stop n start = some l →
    pagesLoop stop m start = some l' → l = l' := by
  induction n with
  | zero =>
    intro m start l l' h h'
    rw [pagesLoop] at h
    split at h
    · cases h
    · rename_i hlt
      rw [pagesLoop_done hlt, Option.some.injEq] at h'
      rw [← h', ← Option.some.inj h]
  | succ n ih =>
    intro m start l l' h h'
    by_cases hlt : start < stop
    · cases m with
      | zero => rw [pagesLoop, if_pos hlt] at h'; cases h'
      | succ m =>
        rw [pagesLoop, if_pos hlt] at h h'
        simp only [Option.bind_eq_bind, Option.bind_eq_some_iff, Option.some.injEq] at h h'
        obtain ⟨_, -, rest, hrest, rfl⟩ := h
        obtain ⟨_, -, rest', hrest', rfl⟩ := h'
        rw [ih hrest hrest']
    · rw [pagesLoop_done hlt, Option.some.injEq] at h h'
      rw [← h, ← h']

/-- For a buffer in one half of the address space, the pages asked for are those of the buffer. -/
theorem bufferPages_half (hab : a < b) (h : SameHalf a b) (token : ℕ) (p : Phys) :
    BufferPages token p (usizeOfVa a) (b - a) ↔
      (∀ v, pageFloor a ≤ v → v * pageSize < b → (PageTable.fromToken token).UserPage p v) ∨
        ∃ v, pageFloor a ≤ v ∧ v * pageSize < b ∧ (PageTable.fromToken token).translate p v = none := by
  obtain ⟨hdist, hlt, -⟩ := h.usize hab.le
  have hbound : b ≤ (pageFloor a + b) * pageSize := by
    rw [pageSize]
    omega
  obtain ⟨pages, hpages, hmem⟩ := pagesLoop_half b hab h hbound
  have hof : ∀ fuel, pagesOf fuel (usizeOfVa a) (b - a) = pagesLoop (usizeOfVa b) fuel (usizeOfVa a) := by
    intro fuel
    rw [pagesOf, ← hdist, Nat.mod_eq_of_lt hlt]
  constructor
  · intro hcond
    rcases hcond b pages ((hof b).trans hpages) with huser | ⟨v, hv, hnone⟩
    · exact Or.inl fun v hle hv => huser v ((hmem v).mpr ⟨hle, hv⟩)
    · exact Or.inr ⟨v, ((hmem v).mp hv).1, ((hmem v).mp hv).2, hnone⟩
  · intro hcond fuel pages' hpages'
    rw [hof fuel] at hpages'
    rw [pagesLoop_unique fuel hpages' hpages]
    rcases hcond with huser | ⟨v, hle, hv, hnone⟩
    · exact Or.inl fun v hv => huser v ((hmem v).mp hv).1 ((hmem v).mp hv).2
    · exact Or.inr ⟨v, (hmem v).mpr ⟨hle, hv⟩, hnone⟩

/-! ### References and strings -/

theorem ptePpn_lt (e : ℕ) : ptePpn e < 2 ^ 44 := Nat.mod_lt _ (by decide)

theorem offsetOf_lt (addr : ℕ) : offsetOf addr < pageSize := Nat.mod_lt _ (by decide)

theorem translateVa_eq_some {pa : ℕ} : pt.translateVa p addr = some pa ↔
    ∃ e, pt.translate p (vpnOf addr) = some e ∧ pa = ptePpn e * pageSize + offsetOf addr := by
  rw [PageTable.translateVa, Option.map_eq_some_iff]
  refine exists_congr fun e => and_congr_right fun _ => ?_
  have hlt : ptePpn e * pageSize + offsetOf addr < 2 ^ 56 := by
    have hppn := ptePpn_lt e
    have hoff := offsetOf_lt addr
    rw [pageSize] at hoff ⊢
    omega
  rw [Nat.mod_eq_of_lt hlt]
  exact eq_comm

theorem vpnOf_lt (addr : ℕ) : vpnOf addr < vpnEnd := by
  rw [vpnOf, pageFloor, pageSize, vpnEnd]
  omega

theorem translate_isSome {ops : List MapOp} (h : MapRun ops pt p) {v : ℕ} (hv : v < vpnEnd) :
    (pt.translate p v).isSome ↔ RegionUsed ops v := by
  rw [PageTable.translate, Option.isSome_map, h.findPte_isSome v hv]

/-- **`translate` and `translate_va` answer exactly for the mapped pages, among the pages that are mapped and
those no neighbour of which ever was.**  After any calls of `map` and `unmap` on a new table, an unmapped
page gets an answer exactly if a page of the same 2 MiB was mapped at some time. -/
theorem translate_some_iff_mapped_iff {ops : List MapOp} (h : MapRun ops pt p) :
    (∀ v, v < vpnEnd → (((pt.translate p v).isSome ↔ (mapped ops v).isSome) ↔
      ((mapped ops v).isSome ∨ ¬ RegionUsed ops v))) ∧
    ∀ va, (((pt.translateVa p va).isSome ↔ (mapped ops (vpnOf va)).isSome) ↔
      ((mapped ops (vpnOf va)).isSome ∨ ¬ RegionUsed ops (vpnOf va))) := by
  have hiff : ∀ v, v < vpnEnd → (((pt.translate p v).isSome ↔ (mapped ops v).isSome) ↔
      ((mapped ops v).isSome ∨ ¬ RegionUsed ops v)) := by
    intro v hv
    rw [translate_isSome h hv]
    have hused : (mapped ops v).isSome → RegionUsed ops v := regionUsed_of_mapped
    tauto
  refine ⟨hiff, fun va => ?_⟩
  rw [PageTable.translateVa, Option.isSome_map]
  exact hiff (vpnOf va) (vpnOf_lt va)

theorem exists_one_page : ∃ pt p, MapRun [.map 5 77 pteR] pt p ∧
    pt.translateVa p (6 * pageSize) = some 0 := by
  have hsome : (((PageTable.new ⟨.init 0 8 (by decide) (by decide), fun _ _ => 0⟩).bind fun x =>
      x.1.map x.2 5 77 pteR).bind fun x => x.1.translateVa x.2 (6 * pageSize)) = some 0 := by decide
  obtain ⟨⟨pt', p'⟩, hx, hva⟩ := Option.bind_eq_some_iff.mp hsome
  obtain ⟨⟨pt, p⟩, hnew, hmap⟩ := Option.bind_eq_some_iff.mp hx
  exact ⟨pt', p', (MapRun.new hnew).map (by decide) (by decide) (by decide) hmap, hva⟩

/-- Page 5 is mapped: it is translated.  Page 512 is in another table, which is not there: it is not. -/
theorem translate_some_iff_mapped_one_page : ∃ pt p, MapRun [.map 5 77 pteR] pt p ∧
    (pt.translate p 5).isSome ∧ ¬ (pt.translate p 512).isSome := by
  obtain ⟨pt, p, hrun, _⟩ := exists_one_page
  obtain ⟨htranslate, _⟩ := translate_some_iff_mapped_iff hrun
  have hunused : ¬ RegionUsed [.map 5 77 pteR] 512 := by
    rintro ⟨w, ppn, flags, hmem, hdiv⟩
    rw [List.mem_singleton] at hmem
    cases hmem
    exact absurd hdiv (by decide)
  refine ⟨pt, p, hrun, ?_, ?_⟩
  · exact ((htranslate 5 (by decide)).mpr (Or.inl rfl)).mpr rfl
  · exact fun hsome => by cases ((htranslate 512 (by decide)).mpr (Or.inr hunused)).mp hsome

/-- Page 5 is mapped and page 6 is not.  `translate` answers for page 6 with an invalid entry, and
`translate_va` with the physical address 0. -/
theorem unmapped_neighbour_translated : ∃ pt p, MapRun [.map 5 77 pteR] pt p ∧
    mapped [.map 5 77 pteR] 6 = none ∧ (pt.translate p 6).isSome ∧
    pt.translateVa p (6 * pageSize) = some 0 := by
  obtain ⟨pt, p, hrun, hva⟩ := exists_one_page
  obtain ⟨e, he, _⟩ := translateVa_eq_some.mp hva
  exact ⟨pt, p, hrun, rfl, Option.isSome_iff_exists.mpr ⟨e, he⟩, hva⟩

/-- The address is refused: its page is in no table, or it is translated to the null pointer. -/
def Refused (pt : PageTable) (p : Phys) (addr : ℕ) : Prop :=
  pt.translateVa p addr = none ∨ pt.translateVa p addr = some 0

theorem locate_eq_none : locate pt p addr size = none ↔ Refused pt p addr := by
  rw [locate, Refused]
  cases pt.translateVa p addr with
  | none => simp
  | some pa => by_cases hpa : pa = 0 <;> simp [hpa]

theorem locate_eq_some (h : locate pt p addr size = some loc) :
    ∃ e, pt.translate p (vpnOf addr) = some e ∧
      loc = ⟨vpnOf addr, ptePpn e * pageSize + offsetOf addr, size⟩ := by
  rw [locate, Option.bind_eq_bind, Option.bind_eq_some_iff] at h
  obtain ⟨pa, hpa, h⟩ := h
  split at h
  · cases h
  · obtain ⟨e, he, rfl⟩ := translateVa_eq_some.mp hpa
    exact ⟨e, he, (Option.some.inj h).symm⟩

theorem inFrame_iff {ppn off vpn : ℕ} :
    (⟨vpn, ppn * pageSize + off, size⟩ : Location).InFrame ppn ↔ off + size ≤ pageSize := by
  show ppn * pageSize ≤ ppn * pageSize + off ∧
    ppn * pageSize + off + size ≤ (ppn + 1) * pageSize ↔ off + size ≤ pageSize
  rw [Nat.add_mul]
  omega

/-- A location that is given is in a user page if the page is one and the bytes do not go beyond it. -/
theorem locate_inUserPage_iff (h : locate pt p addr size = some loc) :
    loc.InUserPage pt p ↔ pt.UserPage p (vpnOf addr) ∧ offsetOf addr + size ≤ pageSize := by
  obtain ⟨e, he, rfl⟩ := locate_eq_some h
  constructor
  · intro hin
    refine ⟨hin.userPage, ?_⟩
    obtain ⟨e', he', -, -, hin'⟩ := hin
    rw [← Option.some.inj (he.symm.trans he')] at hin'
    exact inFrame_iff.mp hin'
  · rintro ⟨huser, hle⟩
    exact .of_userPage huser he (inFrame_iff.mpr hle)

/-- What is given for a reference is in a user page. -/
def RefInUser (token : ℕ) (p : Phys) (given : Option Location) : Prop :=
  ∀ loc, given = some loc → loc.InUserPage (.fromToken token) p

/-- The address is refused, or its page is a user page and the value does not go beyond it. -/
def RefPage (token : ℕ) (p : Phys) (ptr size : ℕ) : Prop :=
  Refused (.fromToken token) p ptr ∨
    (PageTable.fromToken token).UserPage p (vpnOf ptr) ∧ offsetOf ptr + size ≤ pageSize

theorem refInUser_iff (token : ℕ) (p : Phys) (ptr size : ℕ) :
    RefInUser token p (locate (.fromToken token) p ptr size) ↔ RefPage token p ptr size := by
  cases hloc : locate (.fromToken token) p ptr size with
  | none =>
    constructor
    · intro _
      exact Or.inl (locate_eq_none.mp hloc)
    · intro _ loc hsome
      cases hsome
  | some loc =>
    have hnot : ¬ Refused (.fromToken token) p ptr := by
      intro href
      rw [locate_eq_none.mpr href] at hloc
      cases hloc
    rw [RefPage, ← locate_inUserPage_iff hloc]
    constructor
    · intro h
      exact Or.inr (h loc rfl)
    · intro h loc' hsome
      rw [← Option.some.inj hsome]
      exact h.resolve_left hnot

/-- The byte that the kernel reads for an address, unless the address is refused. -/
def charAt (pt : PageTable) (p : Phys) (addr : ℕ) : Option ℕ :=
  (locate pt p addr 1).map fun loc => p.byte loc.addr

/-- What is read for a string is in user pages. -/
def StrInUser (pt : PageTable) (p : Phys) (ptr : ℕ) : Prop :=
  ∀ fuel, ∀ loc ∈ (strLoop pt p fuel ptr).1, loc.InUserPage pt p

/-- Every address up to the end of the string is refused or in a user page. -/
def StrPages (pt : PageTable) (p : Phys) (ptr : ℕ) : Prop :=
  ∀ n, (∀ k < n, ∃ c, charAt pt p (ptr + k) = some c ∧ c ≠ 0) →
    Refused pt p (ptr + n) ∨ pt.UserPage p (vpnOf (ptr + n))

theorem locate_mod (pt : PageTable) (p : Phys) (addr size : ℕ) :
    locate pt p (addr % 2 ^ 64) size = locate pt p addr size := by
  have hva : addr % 2 ^ 64 % 2 ^ 39 = addr % 2 ^ 39 := Nat.mod_mod_of_dvd addr (by decide)
  rw [locate, locate, PageTable.translateVa, PageTable.translateVa, vpnOf, vpnOf, offsetOf, offsetOf, hva]

theorem strLoop_mod (pt : PageTable) (p : Phys) (fuel va : ℕ) :
    strLoop pt p fuel (va % 2 ^ 64) = strLoop pt p fuel va := by
  cases fuel with
  | zero => rfl
  | succ fuel =>
    have hnext : (va % 2 ^ 64 + 1) % 2 ^ 64 = (va + 1) % 2 ^ 64 := Nat.mod_add_mod va (2 ^ 64) 1
    rw [strLoop, strLoop, locate_mod, hnext]

theorem strLoop_succ (h : locate pt p addr 1 = some loc) :
    (strLoop pt p (fuel + 1) addr).1 =
      loc :: if p.byte loc.addr = 0 then [] else (strLoop pt p fuel (addr + 1)).1 := by
  rw [strLoop, h, strLoop_mod]
  show (if p.byte loc.addr = 0 then _ else _ : List Location × Option (List ℕ)).1 = _
  split <;> rfl

theorem strLoop_reads (n : ℕ) : ∀ {ptr : ℕ} {loc : Location},
    (∀ k < n, ∃ c, charAt pt p (ptr + k) = some c ∧ c ≠ 0) → locate pt p (ptr + n) 1 = some loc →
      loc ∈ (strLoop pt p (n + 1) ptr).1 := by
  induction n with
  | zero =>
    intro ptr loc _ hloc
    rw [Nat.add_zero] at hloc
    rw [strLoop_succ hloc]
    exact List.mem_cons_self
  | succ n ih =>
    intro ptr loc hchars hloc
    obtain ⟨c, hc, hne⟩ := hchars 0 n.succ_pos
    rw [Nat.add_zero, charAt, Option.map_eq_some_iff] at hc
    obtain ⟨first, hfirst, rfl⟩ := hc
    have hrest : ∀ k < n, ∃ c, charAt pt p (ptr + 1 + k) = some c ∧ c ≠ 0 := by
      intro k hk
      rw [Nat.add_assoc, Nat.add_comm 1 k]
      exact hchars (k + 1) (Nat.succ_lt_succ hk)
    rw [Nat.add_comm n 1, ← Nat.add_assoc] at hloc
    rw [strLoop_succ hfirst, if_neg hne]
    exact List.mem_cons_of_mem _ (ih hrest hloc)

theorem StrPages.tail {ptr c : ℕ} (h : StrPages pt p ptr) (hc : charAt pt p ptr = some c) (hne : c ≠ 0) :
    StrPages pt p (ptr + 1) := by
  intro n hchars
  have hall : ∀ k < n + 1, ∃ c, charAt pt p (ptr + k) = some c ∧ c ≠ 0 := by
    intro k hk
    cases k with
    | zero => exact ⟨c, hc, hne⟩
    | succ k =>
      rw [Nat.add_comm k 1, ← Nat.add_assoc]
      exact hchars k (Nat.lt_of_succ_lt_succ hk)
  rw [Nat.add_assoc, Nat.add_comm 1 n]
  exact h (n + 1) hall

theorem strInUser_iff (pt : PageTable) (p : Phys) (ptr : ℕ) :
    StrInUser pt p ptr ↔ StrPages pt p ptr := by
  constructor
  · intro h n hchars
    cases hloc : locate pt p (ptr + n) 1 with
    | none => exact Or.inl (locate_eq_none.mp hloc)
    | some loc =>
      have hin := h (n + 1) loc (strLoop_reads n hchars hloc)
      exact Or.inr ((locate_inUserPage_iff hloc).mp hin).1
  · intro h fuel
    induction fuel generalizing ptr with
    | zero => exact fun loc hloc => absurd hloc List.not_mem_nil
    | succ fuel ih =>
      cases hfirst : locate pt p ptr 1 with
      | none =>
        rw [strLoop, hfirst]
        exact fun loc hloc => absurd hloc List.not_mem_nil
      | some first =>
        have hnot : ¬ Refused pt p ptr := by
          intro href
          rw [locate_eq_none.mpr href] at hfirst
          cases hfirst
        have huser := (h 0 fun k hk => absurd hk k.not_lt_zero).resolve_left hnot
        rw [strLoop_succ hfirst]
        refine List.forall_mem_cons.mpr ⟨?_, ?_⟩
        · exact (locate_inUserPage_iff hfirst).mpr ⟨huser, offsetOf_lt ptr⟩
        · split
          · exact fun loc hloc => absurd hloc List.not_mem_nil
          · rename_i hne
            have hc : charAt pt p ptr = some (p.byte first.addr) := by rw [charAt, hfirst]; rfl
            exact ih (ptr + 1) (h.tail hc hne)

/-! ### The four functions -/

/-- **Where the kernel reads and writes for a program.**  What the four functions give is in user pages
exactly if the pages asked for are user pages, or the pointer is refused. -/
theorem translated_in_user_pages_iff (token : ℕ) (p : Phys) :
    (∀ ptr len, BufferInUser token p ptr len ↔ BufferPages token p ptr len) ∧
    (∀ a b, a < b → SameHalf a b → (BufferPages token p (usizeOfVa a) (b - a) ↔
      (∀ v, pageFloor a ≤ v → v * pageSize < b → (PageTable.fromToken token).UserPage p v) ∨
        ∃ v, pageFloor a ≤ v ∧ v * pageSize < b ∧ (PageTable.fromToken token).translate p v = none)) ∧
    (∀ ptr, (∀ fuel, ∀ loc ∈ (translatedStr fuel token p ptr).1, loc.InUserPage (.fromToken token) p) ↔
      StrPages (.fromToken token) p ptr) ∧
    (∀ ptr size, RefInUser token p (translatedRef token p ptr size) ↔ RefPage token p ptr size) ∧
    ∀ ptr size, RefInUser token p (translatedMutRef token p ptr size) ↔ RefPage token p ptr size := by
  refine ⟨bufferInUser_iff token p, ?_, ?_, refInUser_iff token p, refInUser_iff token p⟩
  · intro a b hab hhalf
    exact bufferPages_half hab hhalf token p
  · intro ptr
    exact strInUser_iff (.fromToken token) p ptr

/-! ### The trap context -/

theorem MapArea.new_eq_some {startVa endVa : ℕ} {mapType : MapType} {mapPerm : MapPermission}
    {area : MapArea} (h : MapArea.new startVa endVa mapType mapPerm = some area) :
    area.start = pageFloor (startVa % 2 ^ 39) ∧ area.stop = pageCeil (endVa % 2 ^ 39) ∧
      area.mapPerm = mapPerm := by
  rw [MapArea.new] at h
  split at h
  · rw [← Option.some.inj h]
    exact ⟨rfl, rfl, rfl⟩
  · cases h

/-- **The trap context of a thread** is mapped without the flag `U`. -/
theorem MemorySet.allocUserRes_trapCx {L : Layout} {ms ms' : MemorySet} {p' : Phys}
    {forgotten : List MapArea} {ustackBase : ℕ} (hi : ms.Inv L p forgotten)
    (h : ms.allocUserRes L p ustackBase 0 = some (ms', p')) :
    ∃ e, ms'.pageTable.translate p' (vpnEnd - 2) = some e ∧ pteFlags e = 7 := by
  simp only [allocUserRes, Option.bind_eq_bind, Option.bind_eq_some_iff, Prod.exists] at h
  obtain ⟨ms₁, p₁, hstack, htrap⟩ := h
  have hw₁ := insertFramedArea_spec hi hstack
  simp only [insertFramedArea, Option.bind_eq_bind, Option.bind_eq_some_iff] at htrap
  obtain ⟨area, harea, hpush⟩ := htrap
  obtain ⟨hstart, hstop, hperm⟩ := MapArea.new_eq_some harea
  have hin : area.zone.Contains (vpnEnd - 2) := by
    show area.start ≤ vpnEnd - 2 ∧ vpnEnd - 2 < area.stop
    rw [hstart, hstop]
    decide
  obtain ⟨hmap, -⟩ := push_inv hpush
  obtain ⟨e, he, hfl⟩ := (MapArea.map_mapped hw₁.inv.sound hmap).flags (vpnEnd - 2) hin
  rw [hperm] at hfl
  exact ⟨e, (PageTable.entry_eq_some.mp he).1, hfl⟩

/-- An executable of one page of variables. -/
def bssElf : ElfFile where
  input := []
  programHeaders := [⟨true, 0x10000, 0x1000, 0, 0, true, true, false⟩]
  entryPoint := 0x10000

/-- A process with a thread: its program is at page 16, its stack at page 18, its trap context in the upper
half. -/
def threadRun : Option State :=
  (State.start sampleLayout fun _ _ => 0).play sampleLayout
    [.fromElf 0 bssElf, .allocUserRes 0 0x12000 0]

theorem bufferInUser_one_page {token e : ℕ} (hab : a < b) (h : SameHalf a b)
    (hpage : b ≤ (pageFloor a + 1) * pageSize)
    (he : (PageTable.fromToken token).translate p (pageFloor a) = some e) (hu : pteFlags e &&& pteU ≠ pteU) :
    ¬ BufferInUser token p (usizeOfVa a) (b - a) := by
  have hfloor : pageFloor a * pageSize < b := (Nat.div_mul_le_self a pageSize).trans_lt hab
  rw [bufferInUser_iff, bufferPages_half hab h]
  intro hcond
  rcases hcond with huser | ⟨v, hle, hv, hnone⟩
  · obtain ⟨e', he', -, hu'⟩ := huser (pageFloor a) le_rfl hfloor
    have hee : e = e' := Option.some.inj (he.symm.trans he')
    exact hu (hee ▸ hu')
  · have hva : v = pageFloor a := by
      have hlt : v * pageSize < (pageFloor a + 1) * pageSize := hv.trans_le hpage
      have := Nat.lt_of_mul_lt_mul_right hlt
      omega
    rw [hva, he] at hnone
    cases hnone

/-- The kernel is given the trap context of the thread, which is not a user page, and a page behind the
program, which is not mapped. -/
theorem trap_context_given : ∃ s space, Run sampleLayout s ∧ s.spaces 0 = some space ∧
    ¬ BufferInUser space.set.pageTable.token s.phys (MemorySet.trapCxBottom 0) 8 ∧
    ¬ RefInUser space.set.pageTable.token s.phys
      (translatedMutRef space.set.pageTable.token s.phys (MemorySet.trapCxBottom 0 + 8) 8) ∧
    ¬ (∀ fuel, ∀ loc ∈ (translatedStr fuel space.set.pageTable.token s.phys (MemorySet.trapCxBottom 0 + 8)).1,
      loc.InUserPage (.fromToken space.set.pageTable.token) s.phys) ∧
    ¬ BufferInUser space.set.pageTable.token s.phys 0x11000 1 := by
  have hplay : ∃ s ∈ threadRun, ∃ space ∈ s.spaces 0, ∃ e ∈ space.set.pageTable.translate s.phys 17,
      pteFlags e &&& pteU ≠ pteU := by
    decide +kernel
  obtain ⟨s, hs, space, hsp, e', he', hu'⟩ := hplay
  have hrun : Run sampleLayout s := (Run.start _).play _ hs
  have htab := (hrun.inv.spaces 0 space hsp).sound.toTables
  -- The second operation has mapped the trap context.
  obtain ⟨e, he, hfl⟩ : ∃ e, space.set.pageTable.translate s.phys (vpnEnd - 2) = some e ∧ pteFlags e = 7 := by
    have hs' : threadRun = some s := hs
    rw [threadRun, State.play, Option.bind_eq_some_iff] at hs'
    obtain ⟨s₁, hone, hrest⟩ := hs'
    rw [State.play, Option.bind_eq_some_iff] at hrest
    obtain ⟨s₂, htwo, hlast⟩ := hrest
    obtain rfl : s₂ = s := Option.some.inj hlast
    simp only [State.step, State.modify, Option.bind_eq_bind, Option.bind_eq_some_iff, Option.some.injEq,
      Prod.exists] at htwo
    obtain ⟨space₁, hsp₁, ms, p, halloc, rfl⟩ := htwo
    have hinv := ((Run.start (L := sampleLayout) fun _ _ => 0).step _ hone).inv.spaces 0 space₁ hsp₁
    obtain rfl : (⟨ms, space₁.forgotten⟩ : AddressSpace) = space := by
      have hsp' : Function.update s₁.spaces 0 (some ⟨ms, space₁.forgotten⟩) 0 = some space := hsp
      rw [Function.update_self, Option.some.injEq] at hsp'
      exact hsp'
    exact MemorySet.allocUserRes_trapCx hinv halloc
  have hu : pteFlags e &&& pteU ≠ pteU := by
    rw [hfl]
    decide
  rw [← PageTable.translate_fromToken htab] at he he'
  have hpage : vpnOf (MemorySet.trapCxBottom 0 + 8) = vpnEnd - 2 := by decide
  have huser : ¬ (PageTable.fromToken space.set.pageTable.token).UserPage s.phys
      (vpnOf (MemorySet.trapCxBottom 0 + 8)) := by
    rintro ⟨e₁, he₁, _, hu₁⟩
    rw [hpage, he, Option.some.injEq] at he₁
    exact hu (he₁ ▸ hu₁)
  -- Eight bytes into the page the pointer is not null.
  have href : ¬ Refused (.fromToken space.set.pageTable.token) s.phys (MemorySet.trapCxBottom 0 + 8) := by
    have hva := translateVa_eq_some.mpr ⟨e, hpage ▸ he, rfl⟩
    have hoff : offsetOf (MemorySet.trapCxBottom 0 + 8) = 8 := by decide
    rw [Refused, hva, hoff]
    rintro (hnone | hzero)
    · cases hnone
    · have := Option.some.inj hzero
      omega
  refine ⟨s, space, hrun, hsp, ?_, ?_, ?_, ?_⟩
  · have hhalf : SameHalf (2 ^ 39 - 8192) (2 ^ 39 - 8184) := Or.inr ⟨by decide, by decide⟩
    exact bufferInUser_one_page (by decide) hhalf (by decide) he hu
  · intro h
    rcases (refInUser_iff _ _ _ _).mp h with hr | ⟨hup, -⟩
    · exact href hr
    · exact huser hup
  · intro h
    have hzero := (strInUser_iff _ _ _).mp h 0 fun k hk => absurd hk k.not_lt_zero
    exact huser (hzero.resolve_left href)
  · have hhalf : SameHalf 0x11000 0x11001 := Or.inl (by decide)
    exact bufferInUser_one_page (by decide) hhalf (by decide) he' hu'

end LemonCore.Kernel.Mm
