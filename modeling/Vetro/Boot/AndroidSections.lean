import Vetro.Boot.Android

/-!
# Sections of the Android boot images

Where the header says that the sections are, in unbounded arithmetic, and that the
parsers cut exactly these or return an error.  Only the 64-bit offset of
`recovery_dtbo` can make a sum wrap; then the parser panics.
-/

namespace Vetro.Android

open Bytes Splice Outcome Boot List Option

/-- The range `[start, start + len)` of an image. -/
structure Section where
  start : ℕ
  len : ℕ
  deriving Repr, DecidableEq

namespace Section

def stop (s : Section) : ℕ := s.start + s.len

def cut (s : Section) (img : List Byte) : List Byte := slice img s.start s.stop

/-- The section of `len` bytes on the page after `s`. -/
def next (s : Section) (page len : ℕ) : Section := ⟨up s.stop page, len⟩

end Section

def word (img : List Byte) (off : ℕ) : ℕ := ofLeBytes (slice img off (off + 4))

def word64 (img : List Byte) (off : ℕ) : ℕ := ofLeBytes (slice img off (off + 8))

/-- The sections that a `boot.img` declares. -/
structure Sections where
  page : ℕ
  kernel : Section
  ramdisk : Section
  second : Option Section
  recoveryDtbo : Option Section
  dtb : Option Section
  signature : Option Section
  deriving Repr, DecidableEq

/-- The sections that follow one another. -/
def Sections.chain (d : Sections) : List Section :=
  [d.kernel, d.ramdisk] ++ d.second.toList ++ d.dtb.toList ++ d.signature.toList

/-- The `recovery_dtbo` that the header declares. -/
def dtboOf (img : List Byte) (version : ℕ) : Option Section :=
  if 1 ≤ version ∧ word img 1632 ≠ 0 then some ⟨word64 img 1636, word img 1632⟩ else none

def declaredV0 (img : List Byte) (version : ℕ) : Sections :=
  let page := word img 36
  let kernel : Section := ⟨up (bootV0Header version) page, word img 8⟩
  let ramdisk := kernel.next page (word img 16)
  let second := ramdisk.next page (word img 24)
  let after := ((dtboOf img version).map fun s => up s.stop page).getD 0
  { page, kernel, ramdisk, second := some second, recoveryDtbo := dtboOf img version
    dtb := if version = 2 then some ⟨max (up second.stop page) after, word img 1648⟩ else none
    signature := none }

def declaredV3 (img : List Byte) (version : ℕ) : Sections :=
  let page := bootV3PageSize
  let kernel : Section := ⟨page, word img 8⟩
  let ramdisk := kernel.next page (word img 12)
  { page, kernel, ramdisk, second := none, recoveryDtbo := none, dtb := none
    signature := if version = 4 then some (ramdisk.next page (word img 1580)) else none }

def declared (img : List Byte) : Sections :=
  let version := word img 40
  if version ≤ 2 then declaredV0 img version else declaredV3 img version

/-- A section that may be absent. -/
def cutOption (s : Option Section) (img : List Byte) : List Byte :=
  (s.map fun s => s.cut img).getD []

/-- The image was cut at the sections `d`: all are inside it, and those of the chain start on
pages and follow one another. -/
structure BootImage.Cuts (b : BootImage) (img : List Byte) (d : Sections) : Prop where
  kernel : b.kernel = d.kernel.cut img
  ramdisk : b.ramdisk = d.ramdisk.cut img
  second : b.second = cutOption d.second img
  recoveryDtbo : b.recoveryDtbo = cutOption d.recoveryDtbo img
  dtb : b.dtb = cutOption d.dtb img
  signature : b.signature = cutOption d.signature img
  inside : ∀ s ∈ d.chain ++ d.recoveryDtbo.toList, s.stop ≤ img.length
  rounded : ∀ s ∈ d.chain, s.start % d.page = 0
  ordered : d.chain.Pairwise fun s t => s.stop ≤ t.start

/-! ## Reads -/

variable {page : ℕ} {s : Section}

section Reads

variable {img : List Byte}

theorem sub_eq_ok {bytes : List Byte} {start stop : ℕ} (hle : start ≤ stop)
    (hstop : stop ≤ bytes.length) : sub bytes start stop = .ok (slice bytes start stop) :=
  if_pos ⟨hle, hstop⟩

theorem le32_eq_ok {off : ℕ} (hoff : off + 4 ≤ img.length) : le32 img off = .ok (word img off) := by
  rw [le32, field, sub_eq_ok (Nat.le_add_right _ _) hoff]
  rfl

theorem le64_eq_ok {off : ℕ} (hoff : off + 8 ≤ img.length) :
    le64 img off = .ok (word64 img off) := by
  rw [le64, field, sub_eq_ok (Nat.le_add_right _ _) hoff]
  rfl

theorem word_lt (img : List Byte) (off : ℕ) : word img off < 2 ^ 32 :=
  ofLeBytes_lt_of_le 4 (by rw [length_slice]; omega) (by decide)

/-- The pages of `mkbootimg`. -/
def Pages (page : ℕ) : Prop := page ∈ [2048, 4096, 8192, 16384]

theorem Pages.bounds (hpage : Pages page) : 2048 ≤ page ∧ page ≤ 16384 := by
  simp only [Pages, mem_cons, not_mem_nil, or_false] at hpage
  omega

theorem safe_checkPage (w : Which) (page : ℕ) : Safe (checkPage w page) fun _ => Pages page := by
  rw [checkPage]
  split_ifs with hpage
  · exact hpage
  · trivial

theorem up_le_add (v a : ℕ) : up v a ≤ v + a - 1 := Nat.div_mul_le_self _ _

/-- A section is cut where it is, if its end does not wrap. -/
theorem take_eq (himg : img.length < 2 ^ 63) (hpage : Pages page) (s : Section)
    (hstop : s.stop < 2 ^ 64) (w : Which) (what : String) :
    take img s.start s.len page w what =
      if img.length < s.stop then fail (.outOfBounds w what)
      else .ok (s.cut img, up s.stop page) := by
  have hend : add64 s.start s.len = s.stop := add64_of_lt hstop
  have hbounds := hpage.bounds
  rw [take, hend]
  split_ifs with hout
  · rfl
  · have hrange : sub img s.start s.stop = .ok (s.cut img) :=
      sub_eq_ok (Nat.le_add_right _ _) (Nat.le_of_not_lt hout)
    have hup := up_le_add s.stop page
    have hexact : roundUp s.stop page = up s.stop page := Nat.mod_eq_of_lt (by omega)
    rw [hrange, ok_bind, hexact]

theorem safe_take (himg : img.length < 2 ^ 63) (hpage : Pages page) (s : Section)
    (hstop : s.stop < 2 ^ 64) (w : Which) (what : String) :
    Safe (take img s.start s.len page w what) fun r =>
      s.stop ≤ img.length ∧ r = (s.cut img, up s.stop page) := by
  rw [take_eq himg hpage s hstop]
  split_ifs with hout
  · trivial
  · exact ⟨Nat.le_of_not_lt hout, rfl⟩

/-- A section whose end wraps into the image. -/
def Section.Wraps (s : Section) (img : List Byte) : Prop :=
  2 ^ 64 ≤ s.stop ∧ s.stop - 2 ^ 64 ≤ img.length

/-- The end is then before the start. -/
theorem take_wraps (hstart : s.start < 2 ^ 64) (hlen : s.len < 2 ^ 32) (hwraps : s.Wraps img)
    (page : ℕ) (w : Which) (what : String) : take img s.start s.len page w what = panic := by
  obtain ⟨hover, hinside⟩ := hwraps
  have hstop : s.stop = s.start + s.len := rfl
  have hend : add64 s.start s.len = s.stop - 2 ^ 64 := by
    rw [add64, ← hstop]
    omega
  rw [take, hend, if_neg (Nat.not_lt.mpr hinside), sub, if_neg (by omega)]
  rfl

/-- An end that wraps past the image is refused. -/
theorem safe_take_of_over (hstart : s.start < 2 ^ 64) (hlen : s.len < 2 ^ 32)
    (hover : 2 ^ 64 ≤ s.stop) (hnot : ¬s.Wraps img) (page : ℕ) (w : Which) (what : String)
    (post : List Byte × ℕ → Prop) : Safe (take img s.start s.len page w what) post := by
  have hstop : s.stop = s.start + s.len := rfl
  have hend : add64 s.start s.len = s.stop - 2 ^ 64 := by
    rw [add64, ← hstop]
    omega
  have hpast : img.length < s.stop - 2 ^ 64 := Nat.lt_of_not_le fun hle => hnot ⟨hover, hle⟩
  rw [take, hend, if_pos hpast]
  trivial

end Reads

/-- The next section does not wrap, if the one before it is in the image. -/
theorem Section.next_stop_lt {img : List Byte} (himg : img.length < 2 ^ 63) (hpage : Pages page)
    (hs : s.stop ≤ img.length) {len : ℕ} (hlen : len < 2 ^ 32) :
    (s.next page len).stop < 2 ^ 64 := by
  have hbounds := hpage.bounds
  have hup := up_le_add s.stop page
  have hstop : (s.next page len).stop = up s.stop page + len := rfl
  omega

theorem Section.stop_le_next (hpage : Pages page) (s : Section) (len : ℕ) :
    s.stop ≤ (s.next page len).start :=
  le_up s.stop (by have hbounds := hpage.bounds; omega)

/-- Sections that follow one another, neighbour by neighbour. -/
theorem ordered_of_isChain {sections : List Section}
    (hchain : sections.IsChain fun s t => s.stop ≤ t.start) :
    sections.Pairwise fun s t => s.stop ≤ t.start := by
  have : Trans (fun s t : Section => s.stop ≤ t.start) (fun s t : Section => s.stop ≤ t.start)
      (fun s t : Section => s.stop ≤ t.start) :=
    ⟨fun {_ t _} hfirst hsecond => hfirst.trans ((Nat.le_add_right t.start t.len).trans hsecond)⟩
  exact isChain_iff_pairwise.mp hchain

namespace BootImage

variable {img : List Byte}

/-- The `recovery_dtbo` of a v1 or v2 image, which is reached, wraps into the image. -/
structure Wraps (img : List Byte) : Prop where
  magic : slice img 0 8 = bootMagic
  version : word img 40 ≤ 2
  header : bootV0Header (word img 40) ≤ img.length
  page : Pages (word img 36)
  second : ∀ s ∈ (declared img).second, s.stop ≤ img.length
  wraps : ∃ s ∈ (declared img).recoveryDtbo, s.Wraps img

variable {version : ℕ}

/-- Where the `dtb` may start after the `recovery_dtbo`. -/
def dtboEnd (img : List Byte) (version : ℕ) : ℕ :=
  ((dtboOf img version).map fun s => up s.stop (word img 36)).getD 0

theorem dtboEnd_mod (img : List Byte) (version : ℕ) : dtboEnd img version % word img 36 = 0 := by
  rw [dtboEnd]
  cases dtboOf img version with
  | none => exact Nat.zero_mod _
  | some s => exact up_mod _ _

theorem dtboEnd_le (hpage : Pages (word img 36))
    (hdtbo : ∀ s ∈ dtboOf img version, s.stop ≤ img.length) :
    dtboEnd img version ≤ img.length + 16384 := by
  have hbounds := hpage.bounds
  rw [dtboEnd]
  cases hsome : dtboOf img version with
  | none => exact Nat.zero_le _
  | some s =>
    have hstop := hdtbo s hsome
    have hup := up_le_add s.stop (word img 36)
    rw [map_some, getD_some]
    omega

/-- The sections of v0 to v2 that follow one another start on pages. -/
theorem rounded_declaredV0 (img : List Byte) (version : ℕ) :
    ∀ s ∈ (declaredV0 img version).chain, s.start % (declaredV0 img version).page = 0 := by
  have hdtb (v : ℕ) : max (up v (word img 36)) (dtboEnd img version) % word img 36 = 0 := by
    rcases max_choice (up v (word img 36)) (dtboEnd img version) with hmax | hmax
    · rw [hmax, up_mod]
    · rw [hmax, dtboEnd_mod]
  have hpage : (declaredV0 img version).page = word img 36 := rfl
  rw [hpage, Sections.chain]
  by_cases htwo : version = 2
  · simp [declaredV0, htwo, Section.next, up_mod]
    exact htwo ▸ hdtb _
  · simp [declaredV0, htwo, Section.next, up_mod]

theorem ordered_declaredV0 (hpage : Pages (word img 36)) (version : ℕ) :
    (declaredV0 img version).chain.Pairwise fun s t => s.stop ≤ t.start := by
  have hbounds := hpage.bounds
  have hlast (v : ℕ) : v ≤ up v (word img 36) := le_up _ (by omega)
  refine ordered_of_isChain ?_
  by_cases htwo : version = 2
  · simp [Sections.chain, declaredV0, htwo, Section.stop_le_next hpage, hlast]
  · simp [Sections.chain, declaredV0, htwo, Section.stop_le_next hpage]

variable (himg : img.length < 2 ^ 63)
include himg

/-- The last section, if the version has it. -/
theorem safe_takeWhen (hpage : Pages page) (present : Bool) {off lenAt : ℕ}
    (hoff : off < 2 ^ 63 + 2 ^ 62) (hlen : present = true → lenAt + 4 ≤ img.length) (w : Which)
    (what : String) :
    Safe (takeWhen present img off lenAt page w what) fun found =>
      ∀ s : Option Section, s = (if present then some ⟨off, word img lenAt⟩ else none) →
        found = cutOption s img ∧ ∀ t ∈ s, t.stop ≤ img.length := by
  have hword := word_lt img lenAt
  rw [takeWhen]
  split_ifs with hpresent
  · rw [le32_eq_ok (hlen hpresent), ok_bind]
    refine (safe_take himg hpage ⟨off, word img lenAt⟩ ?_ w what).bind ?_
    · rw [Section.stop]
      dsimp only
      omega
    · rintro _ ⟨hinside, rfl⟩ s rfl
      exact ⟨rfl, fun t ht => by rwa [← some.inj ht]⟩
  · rintro s rfl
    exact ⟨rfl, by simp⟩

theorem safe_parseV3 (version : ℕ) (w : Which) :
    Safe (parseV3 img version w) fun b => b.Cuts img (declaredV3 img version) := by
  have hpage : Pages bootV3PageSize := by simp [Pages, bootV3PageSize]
  have hword := word_lt img
  refine Safe.unless fun htruncated => ?_
  have hlength : 1580 ≤ img.length := by
    rw [bootV3Header] at htruncated
    split_ifs at htruncated <;> omega
  rw [le32_eq_ok (by omega), ok_bind]
  set d := declaredV3 img version with hd
  refine (safe_take himg hpage d.kernel ?_ w "kernel").bind ?_
  · have hstop : d.kernel.stop = bootV3PageSize + word img 8 := rfl
    have hsize : bootV3PageSize = 4096 := rfl
    have hlt := hword 8
    omega
  rintro _ ⟨hkernel, rfl⟩
  dsimp only
  rw [le32_eq_ok (by omega), ok_bind]
  refine (safe_take himg hpage d.ramdisk (Section.next_stop_lt himg hpage hkernel (hword 12)) w
    "ramdisk").bind ?_
  rintro _ ⟨hramdisk, rfl⟩
  refine (safe_takeWhen himg hpage (version = 4) ?_ ?_ w "boot_signature").bind ?_
  · have hup := up_le_add d.ramdisk.stop bootV3PageSize
    have hsize : bootV3PageSize = 4096 := rfl
    omega
  · intro hversion
    rw [of_decide_eq_true hversion] at htruncated
    exact Nat.le_of_not_lt htruncated
  intro found hfound
  rw [sub_eq_ok (by omega) (by omega), ok_bind, le32_eq_ok (by omega), ok_bind]
  have hdeclared : d.signature =
      if decide (version = 4) = true then some (d.ramdisk.next bootV3PageSize (word img 1580))
      else none := by
    rw [hd, declaredV3]
    simp
  obtain ⟨hsignature, hinside⟩ := hfound d.signature hdeclared
  have hchain : d.chain = [d.kernel, d.ramdisk] ++ d.signature.toList := by
    rw [Sections.chain]
    simp [hd, declaredV3]
  refine ⟨?_, ?_, rfl, rfl, rfl, hsignature, ?_, ?_, ?_⟩
  · dsimp only
  · dsimp only
  · intro s hs
    have hnone : d.recoveryDtbo = none := rfl
    simp only [hchain, hnone, mem_append, mem_cons, not_mem_nil, or_false,
      mem_toList, toList_none] at hs
    rcases hs with (rfl | rfl) | hs
    · exact hkernel
    · exact hramdisk
    · exact hinside s hs
  · rw [hchain, hdeclared]
    split_ifs
    · simp [hd, declaredV3, Section.next, up_mod]
    · simp [hd, declaredV3, Section.next, up_mod]
  · rw [hchain, hdeclared]
    refine ordered_of_isChain ?_
    have hfirst : d.kernel.stop ≤ d.ramdisk.start := Section.stop_le_next hpage _ _
    split_ifs
    · simp [hfirst, Section.stop_le_next hpage]
    · simp [hfirst]

omit himg in
theorem word64_lt (img : List Byte) (off : ℕ) : word64 img off < 2 ^ 64 :=
  ofLeBytes_lt_of_le 8 (by rw [length_slice]; omega) (by decide)

omit himg in
/-- The `recovery_dtbo` is read at its own offset. -/
theorem takeDtbo_eq (hlength : bootV0Header version ≤ img.length) (hversion : version ≤ 2)
    (off page : ℕ) (w : Which) :
    takeDtbo img version off page w =
      match dtboOf img version with
      | none => .ok ([], off)
      | some s => take img s.start s.len page w "recovery_dtbo" >>= fun r =>
        .ok (r.1, max off r.2) := by
  rw [takeDtbo, dtboOf]
  by_cases hold : version < 1
  · rw [if_pos hold, if_neg (by omega)]
  · have hheader : 1648 ≤ img.length := by
      rw [bootV0Header] at hlength
      split_ifs at hlength <;> omega
    rw [if_neg hold, le32_eq_ok (by omega), ok_bind, le64_eq_ok (by omega), ok_bind]
    by_cases hsize : word img 1632 = 0
    · rw [if_pos hsize, if_neg (by simp [hsize])]
    · rw [if_neg hsize, if_pos ⟨by omega, hsize⟩]

theorem safe_takeDtbo (hlength : bootV0Header version ≤ img.length) (hversion : version ≤ 2)
    (hpage : Pages page) (hnot : ∀ s ∈ dtboOf img version, ¬s.Wraps img) (off : ℕ) (w : Which) :
    Safe (takeDtbo img version off page w) fun r =>
      r = (cutOption (dtboOf img version) img,
          max off (((dtboOf img version).map fun s => up s.stop page).getD 0)) ∧
        ∀ s ∈ dtboOf img version, s.stop ≤ img.length := by
  rw [takeDtbo_eq hlength hversion]
  cases hdtbo : dtboOf img version with
  | none => exact ⟨by simp [cutOption], by simp⟩
  | some s =>
    have hs : s = ⟨word64 img 1636, word img 1632⟩ := by
      rw [dtboOf] at hdtbo
      split_ifs at hdtbo
      exact (some.inj hdtbo).symm
    have hstart : s.start < 2 ^ 64 := by
      rw [hs]
      exact word64_lt _ _
    have hlen : s.len < 2 ^ 32 := by
      rw [hs]
      exact word_lt _ _
    have hcut : Safe (take img s.start s.len page w "recovery_dtbo") fun r =>
        s.stop ≤ img.length ∧ r = (s.cut img, up s.stop page) := by
      by_cases hover : 2 ^ 64 ≤ s.stop
      · exact safe_take_of_over hstart hlen hover (hnot s hdtbo) page w _ _
      · exact safe_take himg hpage s (Nat.lt_of_not_le hover) w _
    refine hcut.bind ?_
    rintro _ ⟨hinside, rfl⟩
    exact ⟨rfl, fun t ht => by rwa [← some.inj ht]⟩

omit himg in
theorem bootV0Header_bounds (version : ℕ) :
    1632 ≤ bootV0Header version ∧ bootV0Header version ≤ 1660 := by
  rw [bootV0Header]
  split_ifs <;> omega

omit himg in
theorem roundUp_header {hdr : ℕ} (hhdr : hdr ≤ 2128) (hpage : Pages page) :
    roundUp hdr page = up hdr page := by
  have hbounds := hpage.bounds
  have hup := up_le_add hdr page
  exact Nat.mod_eq_of_lt (by omega)

omit himg in
theorem kernel_stop_lt (version : ℕ) (hpage : Pages (word img 36)) :
    (declaredV0 img version).kernel.stop < 2 ^ 64 := by
  have hbounds := hpage.bounds
  have hheader := bootV0Header_bounds version
  have hup := up_le_add (bootV0Header version) (word img 36)
  have hword := word_lt img 8
  have hstop : (declaredV0 img version).kernel.stop =
      up (bootV0Header version) (word img 36) + word img 8 := rfl
  omega

/-- The sections of v0 to v2, unless the `recovery_dtbo` wraps. -/
theorem safe_parseV0 (hversion : version ≤ 2) (w : Which)
    (hnot : bootV0Header version ≤ img.length → Pages (word img 36) →
      (∀ s ∈ (declaredV0 img version).second, s.stop ≤ img.length) → ∀ s ∈ dtboOf img version,
        ¬s.Wraps img) :
    Safe (parseV0 img version w) fun b => b.Cuts img (declaredV0 img version) := by
  have hword := word_lt img
  have hheader := bootV0Header_bounds version
  refine Safe.unless fun htruncated => ?_
  rw [le32_eq_ok (by omega), ok_bind]
  have hlength := Nat.le_of_not_lt htruncated
  refine (safe_checkPage w (word img 36)).bind fun _ hpage => ?_
  have hbounds := hpage.bounds
  set d := declaredV0 img version with hd
  rw [le32_eq_ok (by omega), ok_bind, roundUp_header (by omega) hpage]
  refine (safe_take himg hpage d.kernel (kernel_stop_lt version hpage) w "kernel").bind ?_
  rintro _ ⟨hkernel, rfl⟩
  dsimp only
  rw [le32_eq_ok (by omega), ok_bind]
  refine (safe_take himg hpage d.ramdisk (Section.next_stop_lt himg hpage hkernel (hword 16)) w
    "ramdisk").bind ?_
  rintro _ ⟨hramdisk, rfl⟩
  rw [le32_eq_ok (by omega), ok_bind]
  set second := d.ramdisk.next (word img 36) (word img 24) with hsecondEq
  refine (safe_take himg hpage second (Section.next_stop_lt himg hpage hramdisk (hword 24)) w
    "second").bind ?_
  rintro _ ⟨hsecond, rfl⟩
  have hfits : ∀ s ∈ d.second, s.stop ≤ img.length := by
    intro s hs
    rw [← some.inj hs]
    exact hsecond
  refine (safe_takeDtbo himg hlength hversion hpage (hnot hlength hpage hfits) _ w).bind ?_
  rintro _ ⟨rfl, hdtbo⟩
  have hafter := dtboEnd_le hpage hdtbo
  rw [dtboEnd] at hafter
  refine (safe_takeWhen himg hpage (version = 2) ?_ ?_ w "dtb").bind ?_
  · have hup := up_le_add second.stop (word img 36)
    omega
  · intro htwo
    rw [of_decide_eq_true htwo] at hlength
    have hsize : bootV0Header 2 = 1660 := rfl
    omega
  intro found hfound
  rw [sub_eq_ok (by omega) (by omega), ok_bind, sub_eq_ok (by omega) (by omega), ok_bind,
    sub_eq_ok (by omega) (by omega), ok_bind, le32_eq_ok (by omega), ok_bind]
  have hdeclared : d.dtb = if decide (version = 2) = true then
      some ⟨max (up second.stop (word img 36)) (dtboEnd img version), word img 1648⟩ else none := by
    simp [hsecondEq, dtboEnd, hd, declaredV0]
  obtain ⟨hdtb, hinside⟩ := hfound d.dtb hdeclared
  have hchain : d.chain = [d.kernel, d.ramdisk, second] ++ d.dtb.toList := by
    rw [Sections.chain]
    simp [hsecondEq, hd, declaredV0]
  refine ⟨?_, ?_, rfl, rfl, hdtb, rfl, ?_, rounded_declaredV0 img version,
    ordered_declaredV0 hpage version⟩
  · dsimp only
  · dsimp only
  · intro s hs
    rw [hchain, mem_append, mem_append] at hs
    simp only [mem_cons, not_mem_nil, or_false, mem_toList] at hs
    rcases hs with ((rfl | rfl | rfl) | hs) | hs
    · exact hkernel
    · exact hramdisk
    · exact hsecond
    · exact hinside s hs
    · exact hdtbo s hs

/-- A `recovery_dtbo` that wraps into the image makes the parser panic. -/
theorem parseV0_eq_panic (hversion : version ≤ 2) (w : Which)
    (hheader : bootV0Header version ≤ img.length) (hpage : Pages (word img 36))
    (hsecond : ∀ s ∈ (declaredV0 img version).second, s.stop ≤ img.length)
    (hs : s ∈ dtboOf img version) (hwraps : s.Wraps img) : parseV0 img version w = panic := by
  have hsizes := bootV0Header_bounds version
  set d := declaredV0 img version with hd
  set second := d.ramdisk.next (word img 36) (word img 24) with hsecondEq
  have hsecondFits : second.stop ≤ img.length := hsecond second rfl
  have hnext : d.ramdisk.stop ≤ second.stop :=
    (Section.stop_le_next hpage _ _).trans (Nat.le_add_right _ _)
  have hfirst : d.kernel.stop ≤ d.ramdisk.stop :=
    (Section.stop_le_next hpage _ _).trans (Nat.le_add_right _ _)
  have htake {t : Section} (ht : t.stop ≤ img.length) (what : String) :
      take img t.start t.len (word img 36) w what = .ok (t.cut img, up t.stop (word img 36)) := by
    rw [take_eq himg hpage t (by omega), if_neg (Nat.not_lt.mpr ht)]
  have hkernelTake : take img (up (bootV0Header version) (word img 36)) (word img 8) (word img 36)
      w "kernel" = .ok (d.kernel.cut img, up d.kernel.stop (word img 36)) :=
    htake (show d.kernel.stop ≤ img.length by omega) "kernel"
  have hramdiskTake : take img (up d.kernel.stop (word img 36)) (word img 16) (word img 36)
      w "ramdisk" = .ok (d.ramdisk.cut img, up d.ramdisk.stop (word img 36)) :=
    htake (show d.ramdisk.stop ≤ img.length by omega) "ramdisk"
  have hsecondTake : take img (up d.ramdisk.stop (word img 36)) (word img 24) (word img 36)
      w "second" = .ok (second.cut img, up second.stop (word img 36)) := htake hsecondFits "second"
  have hdtbo : dtboOf img version = some s := hs
  have hfields : s.start < 2 ^ 64 ∧ s.len < 2 ^ 32 := by
    rw [dtboOf] at hdtbo
    split_ifs at hdtbo
    rw [← some.inj hdtbo]
    exact ⟨word64_lt _ _, word_lt _ _⟩
  have hpanic (off : ℕ) : takeDtbo img version off (word img 36) w = panic := by
    rw [takeDtbo_eq hheader hversion, hdtbo]
    dsimp only
    rw [take_wraps hfields.1 hfields.2 hwraps]
    rfl
  have hcheck : checkPage w (word img 36) = .ok () := if_pos hpage
  rw [parseV0, if_neg (Nat.not_lt.mpr hheader), le32_eq_ok (by omega), ok_bind, hcheck, ok_bind,
    le32_eq_ok (by omega), ok_bind, roundUp_header (by omega) hpage,
    hkernelTake, ok_bind]
  dsimp only
  rw [le32_eq_ok (by omega), ok_bind, hramdiskTake, ok_bind]
  rw [le32_eq_ok (by omega), ok_bind, hsecondTake, ok_bind]
  rw [hpanic]
  rfl

/-- The sections are cut where the header declares them, unless the `recovery_dtbo` wraps. -/
theorem safe_parseAs (hnot : ¬Wraps img) (w : Which) :
    Safe (parseAs img w) fun b => b.Cuts img (declared img) := by
  refine Safe.unless fun hshort => ?_
  rw [sub_eq_ok (by omega) (by omega), ok_bind]
  refine Safe.unless fun hmagic => ?_
  rw [le32_eq_ok (by omega), ok_bind]
  by_cases hversion : word img 40 ≤ 2
  · rw [if_pos hversion]
    have hdeclared : declared img = declaredV0 img (word img 40) := if_pos hversion
    rw [hdeclared]
    refine safe_parseV0 himg hversion w fun hheader hpage hsecond s hs hwraps => hnot ?_
    refine ⟨not_not.mp hmagic, hversion, hheader, hpage, ?_, s, ?_, hwraps⟩
    · rw [hdeclared]
      exact hsecond
    · rw [hdeclared]
      exact hs
  · rw [if_neg hversion]
    have hdeclared : declared img = declaredV3 img (word img 40) := if_neg hversion
    split_ifs
    · rw [hdeclared]
      exact safe_parseV3 himg _ w
    · trivial

theorem parseAs_eq_panic (hwraps : Wraps img) (w : Which) : parseAs img w = panic := by
  obtain ⟨hmagic, hversion, hheader, hpage, hsecond, s, hs, hover⟩ := hwraps
  have hsizes := bootV0Header_bounds (word img 40)
  have hdeclared : declared img = declaredV0 img (word img 40) := if_pos hversion
  rw [hdeclared] at hsecond hs
  rw [parseAs, if_neg (by omega), sub_eq_ok (by omega) (by omega), ok_bind,
    if_neg (not_not.mpr hmagic), le32_eq_ok (by omega), ok_bind, if_pos hversion]
  exact parseV0_eq_panic himg hversion w hheader hpage hsecond hs hover

end BootImage

/-! ## The vendor image -/

/-- The sections that a `vendor_boot.img` declares. -/
structure VendorSections where
  page : ℕ
  ramdisk : Section
  dtb : Section
  table : Option Section
  bootconfig : Option Section
  deriving Repr, DecidableEq

def VendorSections.chain (d : VendorSections) : List Section :=
  [d.ramdisk, d.dtb] ++ d.table.toList ++ d.bootconfig.toList

def declaredVendor (img : List Byte) : VendorSections :=
  let page := word img 12
  let hdr := if word img 8 = 3 then vendorV3Header else vendorV4Header
  let ramdisk : Section := ⟨up hdr page, word img 24⟩
  let dtb := ramdisk.next page (word img 2100)
  let table := dtb.next page (word img 2112)
  { page, ramdisk, dtb
    table := if word img 8 = 3 then none else some table
    bootconfig := if word img 8 = 3 then none else some (table.next page (word img 2124)) }

/-- The ramdisks, as parts of the ramdisk section: all of it in v3, those of the table in v4. -/
def declaredRamdisks (img : List Byte) : List Section :=
  if word img 8 = 3 then [⟨0, word img 24⟩]
  else (List.range (word img 2116)).map fun i =>
    let entries := cutOption (declaredVendor img).table img
    let e := slice entries (word img 2120 * i) (word img 2120 * i + word img 2120)
    ⟨word e 4, word e 0⟩

structure VendorBoot.Cuts (v : VendorBoot) (img : List Byte) : Prop where
  ramdiskSection : v.ramdiskSection = (declaredVendor img).ramdisk.cut img
  dtb : v.dtb = (declaredVendor img).dtb.cut img
  bootconfig : v.bootconfig = cutOption (declaredVendor img).bootconfig img
  ramdisks : v.ramdisks.map (·.data) = (declaredRamdisks img).map (·.cut v.ramdiskSection)
  ramdisksInside : ∀ s ∈ declaredRamdisks img, s.stop ≤ v.ramdiskSection.length
  inside : ∀ s ∈ (declaredVendor img).chain, s.stop ≤ img.length
  rounded : ∀ s ∈ (declaredVendor img).chain, s.start % (declaredVendor img).page = 0
  ordered : (declaredVendor img).chain.Pairwise fun s t => s.stop ≤ t.start

namespace VendorBoot

variable {img : List Byte}

/-- An entry is a part of the section, or an error. -/
theorem safe_entry (ramdiskSection : List Byte) {e : List Byte} (he : ramdiskEntryV4 ≤ e.length) :
    Safe (entry ramdiskSection e) fun r =>
      r.data = (⟨word e 4, word e 0⟩ : Section).cut ramdiskSection ∧
        (⟨word e 4, word e 0⟩ : Section).stop ≤ ramdiskSection.length := by
  have hsize : ramdiskEntryV4 = 108 := rfl
  rw [entry, le32_eq_ok (by omega), ok_bind, le32_eq_ok (by omega), ok_bind]
  refine Safe.unless fun hout => ?_
  have hboard : Safe ((List.range 16).mapM fun i => le32 e (44 + 4 * i))
      (List.Forall₂ (fun _ _ => True) (List.range 16)) := by
    refine Safe.mapM fun i hi => ?_
    have hlt := mem_range.mp hi
    rw [le32_eq_ok (by omega)]
    trivial
  refine hboard.bind fun boardId _ => ?_
  rw [le32_eq_ok (by omega), ok_bind, sub_eq_ok (by omega) (by omega), ok_bind]
  exact ⟨rfl, Nat.le_of_not_lt hout⟩

/-- The first `num` chunks of a table that is long enough. -/
theorem take_asChunks {table : List Byte} {num size : ℕ} (hfits : num * size ≤ table.length)
    (hsize : 0 < num → 0 < size) : (asChunks (max size 1) table).1.take num =
      (List.range num).map fun i => slice table (size * i) (size * i + size) := by
  rcases Nat.eq_zero_or_pos num with rfl | hpos
  · rfl
  · have hmax : max size 1 = size := Nat.max_eq_left (hsize hpos)
    have hcount : num ≤ table.length / size := (Nat.le_div_iff_mul_le (hsize hpos)).mpr hfits
    rw [hmax, asChunks, ← map_take, take_range, Nat.min_eq_left hcount]

theorem data_of_forall₂ {part : List Byte → List Byte} {fits : List Byte → Prop}
    {entries : List (List Byte)} {ramdisks : List VendorRamdisk}
    (hall : List.Forall₂ (fun e r => r.data = part e ∧ fits e) entries ramdisks) :
    ramdisks.map (·.data) = entries.map part ∧ ∀ e ∈ entries, fits e := by
  induction hall with
  | nil => exact ⟨rfl, by simp⟩
  | cons hfirst _ ih =>
    refine ⟨?_, forall_mem_cons.mpr ⟨hfirst.2, ih.2⟩⟩
    rw [map_cons, map_cons, hfirst.1, ih.1]

/-- What the ramdisks and the bootconfig of an image are. -/
structure Rest (img ramdiskSection : List Byte) (r : List VendorRamdisk × List Byte) : Prop where
  ramdisks : r.1.map (·.data) = (declaredRamdisks img).map (·.cut ramdiskSection)
  inside : ∀ s ∈ declaredRamdisks img, s.stop ≤ ramdiskSection.length
  bootconfig : r.2 = cutOption (declaredVendor img).bootconfig img
  sections : ∀ s ∈ (declaredVendor img).table.toList ++ (declaredVendor img).bootconfig.toList,
    s.stop ≤ img.length

theorem safe_table (himg : img.length < 2 ^ 63) (hversion : word img 8 ≠ 3)
    (hlength : vendorV4Header ≤ img.length) (hpage : Pages (word img 12))
    (hdtb : (declaredVendor img).dtb.stop ≤ img.length) (ramdiskSection : List Byte) (w : Which) :
    Safe (table img ramdiskSection (up (declaredVendor img).dtb.stop (word img 12)) (word img 12) w)
      (Rest img ramdiskSection) := by
  have hsize : vendorV4Header = 2128 := rfl
  have hword := word_lt img
  set d := declaredVendor img with hd
  set tableAt := d.dtb.next (word img 12) (word img 2112) with htableAt
  set configAt := tableAt.next (word img 12) (word img 2124) with hconfigAt
  have htable : d.table = some tableAt := if_neg hversion
  have hconfig : d.bootconfig = some configAt := if_neg hversion
  rw [table, le32_eq_ok (by omega), ok_bind, le32_eq_ok (by omega), ok_bind,
    le32_eq_ok (by omega), ok_bind]
  refine (safe_take himg hpage tableAt (Section.next_stop_lt himg hpage hdtb (hword 2112)) w
    "ramdisk table").bind ?_
  rintro _ ⟨htableFits, rfl⟩
  dsimp only
  rw [le32_eq_ok (by omega), ok_bind]
  refine (safe_take himg hpage configAt (Section.next_stop_lt himg hpage htableFits (hword 2124)) w
    "bootconfig").bind ?_
  rintro _ ⟨hconfigFits, rfl⟩
  refine Safe.unless fun hshort => Safe.unless fun hmany => ?_
  have hentry : 0 < word img 2116 → ramdiskEntryV4 ≤ word img 2120 := fun hpos =>
    Nat.le_of_not_lt fun hlt => hshort ⟨hpos, hlt⟩
  have hchunks := take_asChunks (Nat.le_of_not_lt hmany) fun hpos =>
    Nat.lt_of_lt_of_le (show 0 < ramdiskEntryV4 by decide) (hentry hpos)
  rw [hchunks]
  have hdeclared : declaredRamdisks img =
      ((List.range (word img 2116)).map fun i => slice (tableAt.cut img) (word img 2120 * i)
        (word img 2120 * i + word img 2120)).map fun e => ⟨word e 4, word e 0⟩ := by
    rw [declaredRamdisks, if_neg hversion, ← hd, htable, List.map_map]
    rfl
  refine (Safe.mapM fun e he => safe_entry ramdiskSection (?_ : ramdiskEntryV4 ≤ e.length)).bind ?_
  · obtain ⟨i, hi, rfl⟩ := mem_map.mp he
    have hlt := mem_range.mp hi
    have hroom : word img 2120 * (i + 1) ≤ (tableAt.cut img).length := by
      refine (Nat.mul_le_mul_left _ hlt).trans ?_
      rw [Nat.mul_comm]
      exact Nat.le_of_not_lt hmany
    rw [Nat.mul_add, Nat.mul_one] at hroom
    rw [length_slice_of_le hroom, Nat.add_sub_cancel_left]
    exact hentry (Nat.zero_lt_of_lt hlt)
  intro ramdisks hall
  obtain ⟨hdata, hparts⟩ := data_of_forall₂ hall
  refine ⟨?_, ?_, ?_, ?_⟩
  · rw [hdeclared, List.map_map]
    exact hdata
  · rw [hdeclared]
    intro s hs
    obtain ⟨e, he, rfl⟩ := mem_map.mp hs
    exact hparts e he
  · rw [← hd, hconfig]
    rfl
  · rw [← hd, htable, hconfig]
    simp [htableFits, hconfigFits]

theorem safe_ramdisksOf (himg : img.length < 2 ^ 63) (hversion : word img 8 = 3 ∨ word img 8 = 4)
    (hlength : word img 8 = 4 → vendorV4Header ≤ img.length) (hpage : Pages (word img 12))
    (hramdisk : (declaredVendor img).ramdisk.stop ≤ img.length)
    (hdtb : (declaredVendor img).dtb.stop ≤ img.length) (w : Which) :
    Safe (ramdisksOf img (word img 8) ((declaredVendor img).ramdisk.cut img)
      (up (declaredVendor img).dtb.stop (word img 12)) (word img 12) w)
      (Rest img ((declaredVendor img).ramdisk.cut img)) := by
  rw [ramdisksOf]
  by_cases hthree : word img 8 = 3
  · rw [if_pos hthree]
    have hwhole : ((declaredVendor img).ramdisk.cut img).length = word img 24 := by
      rw [Section.cut, length_slice_of_le hramdisk]
      exact Nat.add_sub_cancel_left _ _
    refine ⟨?_, ?_, ?_, ?_⟩
    · rw [declaredRamdisks, if_pos hthree]
      simp only [map_singleton, Section.cut, Section.stop, Nat.zero_add, slice_zero]
      rw [take_of_length_le]
      exact Nat.le_of_eq hwhole
    · rw [declaredRamdisks, if_pos hthree]
      intro s hs
      rw [mem_singleton.mp hs, hwhole]
      exact Nat.le_of_eq (Nat.zero_add _)
    · simp [declaredVendor, hthree, cutOption]
    · simp [declaredVendor, hthree]
  · rw [if_neg hthree]
    have hfour : word img 8 = 4 := hversion.resolve_left hthree
    exact safe_table himg hthree (hlength hfour) hpage hdtb _ w

/-- The vendor image is always cut where its header declares. -/
theorem safe_parse (himg : img.length < 2 ^ 63) :
    Safe (VendorBoot.parse img) fun v => v.Cuts img := by
  have hword := word_lt img
  refine Safe.unless fun hshort => ?_
  rw [sub_eq_ok (by omega) (by omega), ok_bind]
  refine Safe.unless fun _ => ?_
  rw [le32_eq_ok (by omega), ok_bind]
  refine Safe.unless fun hversion => ?_
  set hdr := if word img 8 = 3 then vendorV3Header else vendorV4Header with hhdr
  have hbounds : 2112 ≤ hdr ∧ hdr ≤ 2128 := by
    rw [hhdr]
    split_ifs <;> decide
  refine Safe.unless fun htruncated => ?_
  rw [le32_eq_ok (by omega), ok_bind]
  refine (safe_checkPage _ (word img 12)).bind fun _ hpage => ?_
  have hpages := hpage.bounds
  set d := declaredVendor img with hd
  rw [le32_eq_ok (by omega), ok_bind, BootImage.roundUp_header hbounds.2 hpage]
  refine (safe_take himg hpage d.ramdisk ?_ _ "vendor ramdisk").bind ?_
  · have hup := up_le_add hdr (word img 12)
    have hstop : d.ramdisk.stop = up hdr (word img 12) + word img 24 := rfl
    have hlt := hword 24
    omega
  rintro _ ⟨hramdisk, rfl⟩
  dsimp only
  rw [le32_eq_ok (by omega), ok_bind]
  refine (safe_take himg hpage d.dtb (Section.next_stop_lt himg hpage hramdisk (hword 2100)) _
    "dtb").bind ?_
  rintro _ ⟨hdtb, rfl⟩
  refine (safe_ramdisksOf himg (by omega) ?_ hpage hramdisk hdtb _).bind ?_
  · intro hfour
    rw [hfour] at hhdr
    have hsame : hdr = vendorV4Header := hhdr
    omega
  intro r hrest
  rw [sub_eq_ok (by omega) (by omega), ok_bind, sub_eq_ok (by omega) (by omega), ok_bind]
  refine ⟨?_, ?_, hrest.bootconfig, hrest.ramdisks, hrest.inside, ?_, ?_, ?_⟩
  · dsimp only
  · dsimp only
  · intro s hs
    rw [VendorSections.chain, append_assoc] at hs
    rcases mem_append.mp hs with hs | hs
    · simp only [mem_cons, not_mem_nil, or_false] at hs
      rcases hs with rfl | rfl
      · exact hramdisk
      · exact hdtb
    · exact hrest.sections s hs
  · by_cases hthree : word img 8 = 3
    · simp [VendorSections.chain, declaredVendor, hthree, Section.next, up_mod]
    · simp [VendorSections.chain, declaredVendor, hthree, Section.next, up_mod]
  · refine ordered_of_isChain ?_
    by_cases hthree : word img 8 = 3
    · simpa [VendorSections.chain, declaredVendor, hthree] using Section.stop_le_next hpage _ _
    · simp [VendorSections.chain, declaredVendor, hthree, Section.stop_le_next hpage]

end VendorBoot

/-- The parsers of boot images return an error or cut every section where the header declares
it, for every image, if and only if no `recovery_dtbo` that is reached wraps into the image. -/
theorem safe_parse_iff (img : List Byte) (himg : img.length < 2 ^ 63) :
    (Safe (BootImage.parse img) (fun b => b.Cuts img (declared img)) ↔ ¬BootImage.Wraps img) ∧
    (Safe (BootImage.parseInitBoot img) (fun b => b.Cuts img (declared img)) ↔
      ¬BootImage.Wraps img) ∧
    Safe (VendorBoot.parse img) fun v => v.Cuts img := by
  refine ⟨⟨?_, fun hnot => BootImage.safe_parseAs himg hnot .boot⟩, ⟨?_, ?_⟩,
    VendorBoot.safe_parse himg⟩
  · intro hsafe hwraps
    rw [BootImage.parse, BootImage.parseAs_eq_panic himg hwraps] at hsafe
    exact hsafe
  · intro hsafe hwraps
    rw [BootImage.parseInitBoot, BootImage.parseAs_eq_panic himg hwraps] at hsafe
    exact hsafe
  · intro hnot
    refine (BootImage.safe_parseAs himg hnot .initBoot).bind fun b hcuts => ?_
    split_ifs
    · trivial
    · trivial
    · exact hcuts

/-- A v1 image with nothing in it but a `recovery_dtbo` of two bytes at the last address. -/
def wrappingImage : List Byte :=
  bootMagic ++ List.replicate 28 0 ++ leBytes 4 2048 ++ leBytes 4 1 ++ List.replicate 1588 0 ++
    leBytes 4 2 ++ leBytes 8 (2 ^ 64 - 1) ++ List.replicate 404 0

theorem parse_wrappingImage : BootImage.parse wrappingImage = panic := by
  decide +kernel

/-- A v2 image with all its sections; the `recovery_dtbo` is before the `dtb`. -/
def sectionsImage : List Byte :=
  bootMagic ++ leBytes 4 3 ++ List.replicate 4 0 ++ leBytes 4 2 ++ List.replicate 4 0 ++
    leBytes 4 1 ++ List.replicate 8 0 ++ leBytes 4 2048 ++ leBytes 4 2 ++ List.replicate 1588 0 ++
    leBytes 4 2 ++ leBytes 8 8192 ++ List.replicate 4 0 ++ leBytes 4 4 ++ List.replicate 396 0 ++
    [1, 2, 3] ++ List.replicate 2045 0 ++ [4, 5] ++ List.replicate 2046 0 ++
    [6] ++ List.replicate 2047 0 ++ [7, 8] ++ List.replicate 2046 0 ++ [9, 10, 11, 12]

theorem parse_sectionsImage : ∃ b, BootImage.parse sectionsImage = .ok b ∧
    b.kernel = [1, 2, 3] ∧ b.ramdisk = [4, 5] ∧ b.second = [6] ∧ b.recoveryDtbo = [7, 8] ∧
    b.dtb = [9, 10, 11, 12] :=
  ⟨⟨2, 2048, [1, 2, 3], [4, 5], [6], [7, 8], [9, 10, 11, 12], [], [], .fromRaw 0, []⟩,
    by decide +kernel, rfl, rfl, rfl, rfl, rfl⟩

/-- The five sections are cut where the header declares them. -/
theorem safe_parse_sectionsImage : ∃ b, BootImage.parse sectionsImage = .ok b ∧
    b.Cuts sectionsImage (declared sectionsImage) ∧ b.kernel = [1, 2, 3] ∧ b.ramdisk = [4, 5] ∧
    b.second = [6] ∧ b.recoveryDtbo = [7, 8] ∧ b.dtb = [9, 10, 11, 12] := by
  have hlength : sectionsImage.length < 2 ^ 63 := by decide +kernel
  have hcuts : ¬BootImage.Wraps sectionsImage := by
    rintro ⟨-, -, -, -, -, s, hs, hwraps⟩
    have hdtbo : (declared sectionsImage).recoveryDtbo = some ⟨8192, 2⟩ := by decide +kernel
    have hs' : s = ⟨8192, 2⟩ := (some.inj (hdtbo.symm.trans hs)).symm
    rw [hs'] at hwraps
    exact absurd hwraps.1 (by decide)
  obtain ⟨b, hparse, hsections⟩ := parse_sectionsImage
  rw [← (safe_parse_iff sectionsImage hlength).1, hparse] at hcuts
  exact ⟨b, hparse, hcuts, hsections⟩

end Vetro.Android
