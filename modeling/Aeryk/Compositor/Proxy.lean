import Aeryk.Compositor.Protocol

/-!
# The proxy of a client

`run_proxy` reads the request of its client and then frames, each straight into the pixels of the
slot.  It is a machine that is driven by what its calls of `read` return: as many bytes as were
asked for or fewer, or nothing at the end of the stream.

The client computes the length of a frame from the size it asks for and the proxy from the size it
grants.  Where the two differ the proxy cuts the stream at other places than the client, so the
protocol works exactly where they agree.
-/

namespace Aeryk.Compositor

open List Lib

/-- Where `run_proxy` is. -/
inductive Phase where
  /-- In front of the `read` of the request. -/
  | handshake
  /-- In the loop over frames. -/
  | frames
  /-- The process has ended. -/
  | exited
deriving DecidableEq

/-- `run_proxy` with the arguments and variables it uses. -/
structure Proxy where
  phase : Phase
  x : Int
  y : Int
  got : Nat
  slot : WindowSlot

namespace Proxy

def frameBytes (p : Proxy) : Nat := p.slot.w * p.slot.h * 4

/-- The third argument of the next `read`.  A frame of no bytes is never read. -/
def asked (p : Proxy) : Nat :=
  match p.phase with
  | .handshake => 8
  | .frames => p.frameBytes - p.got
  | .exited => 0

/-- What follows when `read` has returned the bytes `chunk`. -/
def read (p : Proxy) (chunk : List Byte) : Proxy :=
  match p.phase with
  | .handshake =>
    match chunk with
    | [a, b, c, d, e, f, g, h] =>
      { p with
        phase := .frames
        got := 0
        slot := { p.slot with
          x := p.x
          y := p.y
          w := min (ofBytes a b c d) maxWinW
          h := min (ofBytes e f g h) maxWinH
          active := 1 } }
    | _ => { p with phase := .exited }
  | .frames =>
    if chunk = [] then { p with phase := .exited, slot := { p.slot with active := 0 } }
    else
      { p with
        -- a full frame is followed by the next one
        got := if p.got + chunk.length < p.frameBytes then p.got + chunk.length else 0
        slot := { p.slot with pixels := store p.slot.pixels p.got chunk } }
  | .exited => p

/-- One `read` after the other. -/
def run (p : Proxy) (chunks : List (List Byte)) : Proxy := chunks.foldl read p

/-- The calls of `read` may return these runs of bytes. -/
def Splits : Proxy → List (List Byte) → Prop
  | _, [] => True
  | p, chunk :: rest => chunk ≠ [] ∧ chunk.length ≤ p.asked ∧ Splits (p.read chunk) rest

/-- The proxy grants the request and has read the bytes `d` of frames after it. -/
structure Reading (req : WindowRequest) (p : Proxy) (d : List Byte) : Prop where
  phase : p.phase = .frames
  active : p.slot.active = 1
  w : p.slot.w = min req.width maxWinW
  h : p.slot.h = min req.height maxWinH
  got : p.got = d.length % p.frameBytes
  recent : Recent p.slot.pixels p.frameBytes d

variable {req : WindowRequest} {p : Proxy} {d chunk : List Byte} {chunks : List (List Byte)}

/-- The request has been read. -/
theorem reading_of_request (req : WindowRequest) (h : p.phase = .handshake) :
    Reading req (p.read req.bytes) [] := by
  have hread : p.read req.bytes =
      { p with
        phase := .frames
        got := 0
        slot := { p.slot with
          x := p.x
          y := p.y
          w := min req.width maxWinW
          h := min req.height maxWinH
          active := 1 } } := by
    unfold read WindowRequest.bytes leBytes
    rw [h]
    simp only [cons_append, nil_append, ofBytes_le req.width_lt, ofBytes_le req.height_lt]
  rw [hread]
  exact ⟨rfl, rfl, rfl, rfl, (Nat.zero_mod _).symm, recent_nil _ _⟩

/-- A run of bytes of a frame has been read. -/
theorem Reading.read (h : Reading req p d) (hne : chunk ≠ []) (hle : chunk.length ≤ p.asked) :
    Reading req (p.read chunk) (d ++ chunk) := by
  have hlen := length_pos_iff.mpr hne
  have hasked : p.asked = p.frameBytes - p.got := by
    unfold asked
    rw [h.phase]
  have hrun : d.length % p.frameBytes + chunk.length ≤ p.frameBytes := by
    have := h.got
    omega
  have hread : p.read chunk =
      { p with
        got := if p.got + chunk.length < p.frameBytes then p.got + chunk.length else 0
        slot := { p.slot with pixels := store p.slot.pixels p.got chunk } } := by
    unfold Proxy.read
    rw [h.phase]
    exact if_neg hne
  rw [hread]
  refine ⟨h.phase, h.active, h.w, h.h, ?_, ?_⟩
  · show (if p.got + chunk.length < p.frameBytes then p.got + chunk.length else 0) =
      (d ++ chunk).length % p.frameBytes
    rw [length_append, ← Nat.mod_add_mod, h.got]
    split
    next hlt => rw [Nat.mod_eq_of_lt hlt]
    next hge => rw [Nat.le_antisymm hrun (Nat.le_of_not_lt hge), Nat.mod_self]
  · show Recent (store p.slot.pixels p.got chunk) p.frameBytes (d ++ chunk)
    rw [h.got]
    exact h.recent.store hrun

theorem Reading.run (h : Reading req p d) (hs : p.Splits chunks) :
    Reading req (p.run chunks) (d ++ chunks.flatten) := by
  induction chunks generalizing p d with
  | nil =>
    rw [flatten_nil, append_nil]
    exact h
  | cons chunk rest ih =>
    obtain ⟨hne, hle, hrest⟩ := hs
    rw [flatten_cons, ← append_assoc]
    exact ih (h.read hne hle) hrest

/-- A proxy that has ended reads no more. -/
theorem splits_of_exited (h : p.phase = .exited) (hs : p.Splits chunks) : chunks = [] := by
  cases chunks with
  | nil => rfl
  | cons chunk rest =>
    obtain ⟨hne, hle, -⟩ := hs
    have hlen := length_pos_iff.mpr hne
    unfold asked at hle
    rw [h] at hle
    dsimp only at hle
    omega

/-- If all of a stream with a request in front is read, the first `read` has the request. -/
theorem splits_request {rest : List Byte} (hp : p.phase = .handshake) (hs : p.Splits chunks)
    (hall : chunks.flatten = req.bytes ++ rest) :
    ∃ more, chunks = req.bytes :: more ∧ (p.read req.bytes).Splits more ∧ more.flatten = rest := by
  have hlen : req.bytes.length = 8 := rfl
  cases chunks with
  | nil => simp [WindowRequest.bytes, leBytes] at hall
  | cons chunk more =>
    obtain ⟨hne, hle, hmore⟩ := hs
    have hasked : p.asked = 8 := by
      unfold asked
      rw [hp]
    rw [flatten_cons] at hall
    by_cases height : chunk.length = 8
    · obtain ⟨hchunk, htail⟩ := append_inj hall (height.trans hlen.symm)
      subst hchunk
      exact ⟨more, rfl, hmore, htail⟩
    · -- a short first `read` ends the proxy, which leaves the rest of the request unread
      have hexit : (p.read chunk).phase = .exited := by
        unfold Proxy.read
        rw [hp]
        dsimp only
        split
        · exact absurd rfl height
        · rfl
      rw [splits_of_exited hexit hmore, flatten_nil, append_nil] at hall
      have := congrArg length hall
      rw [length_append] at this
      omega

end Proxy

/-! ## What the protocol promises -/

def WindowRequest.frameBytes (req : WindowRequest) : Nat := req.width * req.height * 4

def WindowRequest.pixel (req : WindowRequest) (frame : List Byte) (row col : Nat) : Nat :=
  let i := 4 * (row * req.width + col)
  ofBytes (frame.getD i 0#8) (frame.getD (i + 1) 0#8) (frame.getD (i + 2) 0#8)
    (frame.getD (i + 3) 0#8)

structure Shows (req : WindowRequest) (slot : WindowSlot) (frame : List Byte) : Prop where
  active : slot.active = 1
  w : slot.w = min req.width maxWinW
  h : slot.h = min req.height maxWinH
  pixel : ∀ row < slot.h, ∀ col < slot.w,
    slot.pixel? (row * slot.w + col) = some (req.pixel frame row col)

/-- When the request and some frames have been read, in whatever runs, the slot shows the last
frame. -/
def FrameProtocol (req : WindowRequest) : Prop :=
  ∀ (p : Proxy) (frames : List (List Byte)) (last : List Byte) (chunks : List (List Byte)),
    p.phase = .handshake → (∀ frame ∈ frames, frame.length = req.frameBytes) →
    last.length = req.frameBytes → p.Splits chunks →
    chunks.flatten = req.bytes ++ (frames.flatten ++ last) → Shows req (p.run chunks).slot last

/-- The proxy grants what the client asks for, or a frame is empty. -/
def WindowRequest.Granted (req : WindowRequest) : Prop :=
  (req.width ≤ maxWinW ∧ req.height ≤ maxWinH) ∨ req.width = 0 ∨ req.height = 0

instance (req : WindowRequest) : Decidable req.Granted :=
  inferInstanceAs (Decidable (_ ∨ _))

variable {req : WindowRequest}

theorem length_flatten_frames {frames : List (List Byte)} {n : Nat}
    (h : ∀ frame ∈ frames, frame.length = n) : frames.flatten.length = frames.length * n := by
  induction frames with
  | nil => rw [flatten_nil, length_nil, length_nil, Nat.zero_mul]
  | cons frame rest ih =>
    rw [flatten_cons, length_append, h frame mem_cons_self,
      ih fun f hf => h f (mem_cons_of_mem _ hf), length_cons, Nat.succ_mul,
      Nat.add_comm]

/-- With frames of one length on both sides the buffer holds the last one. -/
theorem Proxy.Reading.last_frame {p : Proxy} {frames : List (List Byte)} {last : List Byte}
    (h : p.Reading req (frames.flatten ++ last)) (hsize : p.frameBytes = req.frameBytes)
    (hall : ∀ frame ∈ frames, frame.length = req.frameBytes)
    (hlast : last.length = req.frameBytes) {j : Nat} (hj : j < req.frameBytes) :
    p.slot.pixels j = last.getD j 0#8 := by
  have hlen := length_flatten_frames hall
  have hq : frames.flatten.length + j < (frames.flatten ++ last).length := by
    rw [length_append]
    omega
  have hrecent := h.recent (frames.flatten.length + j) hq (by
    rw [length_append]
    omega)
  have hmod : (frames.flatten.length + j) % p.frameBytes = j := by
    rw [hsize, hlen, Nat.mul_add_mod', Nat.mod_eq_of_lt hj]
  rw [hmod] at hrecent
  rw [hrecent, getElem_append_right (Nat.le_add_right _ _),
    getD_eq_getElem _ _ (by omega)]
  simp only [Nat.add_sub_cancel_left]

/-- Frames that are granted as asked for arrive. -/
theorem frameProtocol_of_granted (hg : req.Granted) : FrameProtocol req := by
  intro p frames last chunks hp hall hlast hs hbytes
  obtain ⟨more, rfl, hmore, hflat⟩ := Proxy.splits_request hp hs hbytes
  have hend := (Proxy.reading_of_request req hp).run hmore
  rw [nil_append, hflat] at hend
  show Shows req ((p.read req.bytes).run more).slot last
  refine ⟨hend.active, hend.w, hend.h, fun row hrow col hcol => ?_⟩
  rcases hg with ⟨hwidth, hheight⟩ | hzero | hzero
  · have hw := hend.w.trans (Nat.min_eq_left hwidth)
    have hh := hend.h.trans (Nat.min_eq_left hheight)
    rw [hw] at hcol
    rw [hh] at hrow
    obtain ⟨hinside, hrange⟩ := index_lt hwidth hheight hrow hcol
    have hsize : Proxy.frameBytes ((p.read req.bytes).run more) = req.frameBytes := by
      unfold Proxy.frameBytes WindowRequest.frameBytes
      rw [hw, hh]
    have hbyte : ∀ b < 4, ((p.read req.bytes).run more).slot.pixels
        (4 * (row * req.width + col) + b) =
          last.getD (4 * (row * req.width + col) + b) 0#8 := by
      intro b hb
      refine hend.last_frame hsize hall hlast ?_
      unfold WindowRequest.frameBytes
      omega
    rw [hw]
    unfold WindowSlot.pixel? WindowRequest.pixel
    rw [if_pos hrange, hbyte 1 (by omega), hbyte 2 (by omega), hbyte 3 (by omega)]
    have hfirst := hbyte 0 (by omega)
    rw [Nat.add_zero] at hfirst
    rw [hfirst]
  · rw [hend.w, hzero] at hcol
    omega
  · rw [hend.h, hzero] at hrow
    omega

/-! ## Where the sizes differ -/

/-- A frame whose first byte is the only one that is not zero. -/
def marked (n : Nat) : List Byte := 1#8 :: replicate (n - 1) 0#8

theorem length_marked {n : Nat} (h : 0 < n) : (marked n).length = n := by
  rw [marked, length_cons, length_replicate, Nat.sub_add_cancel h]

theorem getElem_marked {n q : Nat} (h : q < (marked n).length) (hq : 0 < q) :
    (marked n)[q] = 0#8 := by
  obtain ⟨q, rfl⟩ := Nat.exists_eq_succ_of_ne_zero (Nat.ne_of_gt hq)
  simp only [marked, getElem_cons_succ, getElem_replicate]

theorem ofBytes_mod (a b c d : Byte) : ofBytes a b c d % 2 ^ 8 = a.toNat := by
  have ha := a.isLt
  unfold ofBytes
  omega

/-- The bytes may come one by one. -/
theorem Proxy.Reading.splits_singles {p : Proxy} {d : List Byte} (h : p.Reading req d)
    (hpos : 0 < p.frameBytes) (bytes : List Byte) : p.Splits (bytes.map fun b => [b]) := by
  induction bytes generalizing p d with
  | nil => trivial
  | cons b rest ih =>
    have hlt := Nat.mod_lt d.length hpos
    have hasked : 1 ≤ p.asked := by
      have hgot := h.got
      unfold Proxy.asked
      rw [h.phase]
      dsimp only
      omega
    have hnext := h.read (cons_ne_nil b []) hasked
    have hsame : (p.read [b]).frameBytes = p.frameBytes := by
      unfold Proxy.frameBytes
      rw [hnext.w, hnext.h, h.w, h.h]
    exact ⟨cons_ne_nil b [], hasked, ih hnext (hsame.symm ▸ hpos)⟩

def Proxy.start : Proxy := ⟨.handshake, 0, 0, 0, ⟨0, 0, 0, 0, 0, fun _ => 0#8⟩⟩

/-- A frame that is longer for the client than for the proxy is overwritten by its own end. -/
theorem not_frameProtocol (hne : 0 < req.width ∧ 0 < req.height) (hg : ¬req.Granted) :
    ¬FrameProtocol req := by
  intro hprotocol
  have hw : 0 < min req.width maxWinW := Nat.lt_min.mpr ⟨hne.1, by decide⟩
  have hh : 0 < min req.height maxWinH := Nat.lt_min.mpr ⟨hne.2, by decide⟩
  have hless : min req.width maxWinW * min req.height maxWinH < req.width * req.height := by
    rcases Nat.lt_or_ge maxWinW req.width with hwide | hwidth
    · exact Nat.mul_lt_mul_of_lt_of_le (by omega) (Nat.min_le_left _ _) hne.2
    · have hhigh : maxWinH < req.height := by
        by_contra hle
        exact hg (.inl ⟨hwidth, Nat.le_of_not_lt hle⟩)
      exact Nat.mul_lt_mul_of_le_of_lt (Nat.min_le_left _ _) (by omega) hne.1
  have hstart := Proxy.reading_of_request (p := Proxy.start) req rfl
  have hbytes : (Proxy.start.read req.bytes).frameBytes =
      min req.width maxWinW * min req.height maxWinH * 4 := by
    unfold Proxy.frameBytes
    rw [hstart.w, hstart.h]
  have hpos : 0 < (Proxy.start.read req.bytes).frameBytes := by
    rw [hbytes]
    exact Nat.mul_pos (Nat.mul_pos hw hh) (by decide)
  have hlong : 0 < req.frameBytes := by
    unfold WindowRequest.frameBytes
    omega
  have hsplits := hstart.splits_singles hpos (marked req.frameBytes)
  have hflat : ((marked req.frameBytes).map fun b => [b]).flatten = marked req.frameBytes := by
    rw [← flatMap_def, flatMap_singleton']
  have hend := hstart.run hsplits
  rw [nil_append, hflat] at hend
  have hshows := hprotocol Proxy.start [] (marked req.frameBytes)
    (req.bytes :: (marked req.frameBytes).map fun b => [b]) rfl
    (fun frame hf => absurd hf not_mem_nil) (length_marked hlong)
    ⟨by simp [WindowRequest.bytes, leBytes], Nat.le_refl 8, hsplits⟩ (by
      rw [flatten_cons, hflat, flatten_nil, nil_append])
  -- the first byte of the buffer is from the last place that the proxy takes for a start
  have hfirst : ((Proxy.start.read req.bytes).run
      ((marked req.frameBytes).map fun b => [b])).slot.pixels 0 = 0#8 := by
    have hsize : ((Proxy.start.read req.bytes).run
        ((marked req.frameBytes).map fun b => [b])).frameBytes =
          min req.width maxWinW * min req.height maxWinH * 4 := by
      unfold Proxy.frameBytes
      rw [hend.w, hend.h]
    have hrecent := hend.recent
    rw [hsize] at hrecent
    rw [hbytes] at hpos
    have hmore : min req.width maxWinW * min req.height maxWinH * 4 < req.frameBytes :=
      Nat.mul_lt_mul_of_pos_right hless (by decide)
    generalize min req.width maxWinW * min req.height maxWinH * 4 = f at *
    have hlast := length_marked hlong
    have hle := Nat.div_mul_le_self (req.frameBytes - 1) f
    have hlt := Nat.lt_div_mul_add (a := req.frameBytes - 1) hpos
    have hq := Nat.mul_pos (Nat.div_pos (show f ≤ req.frameBytes - 1 by omega) hpos) hpos
    have hbyte := hrecent ((req.frameBytes - 1) / f * f) (by omega) (by omega)
    rw [Nat.mul_mod_left, getElem_marked _ hq] at hbyte
    exact hbyte
  have hpixel := hshows.pixel 0 (hend.h.symm ▸ hh) 0 (hend.w.symm ▸ hw)
  unfold WindowSlot.pixel? at hpixel
  rw [Nat.zero_mul, Nat.zero_add, if_pos (by decide)] at hpixel
  have hbyte := congrArg (· % 2 ^ 8) (Option.some.inj hpixel)
  dsimp only [WindowRequest.pixel] at hbyte
  rw [ofBytes_mod, ofBytes_mod, Nat.mul_zero, Nat.zero_mul] at hbyte
  rw [show (Proxy.start.run (req.bytes :: (marked req.frameBytes).map fun b => [b])).slot.pixels 0 =
    0#8 from hfirst] at hbyte
  have hmark : (0#8 : Byte).toNat = (1#8 : Byte).toNat := hbyte
  exact absurd hmark (by decide)

/-- The slot shows the last frame sent exactly for requests that are granted. -/
theorem frame_protocol_iff (req : WindowRequest) : FrameProtocol req ↔ req.Granted := by
  constructor
  · intro hprotocol
    by_contra hg
    refine not_frameProtocol ⟨?_, ?_⟩ hg hprotocol
    · exact Nat.pos_of_ne_zero fun hz => hg (.inr (.inl hz))
    · exact Nat.pos_of_ne_zero fun hz => hg (.inr (.inr hz))
  · exact frameProtocol_of_granted

/-- A window one pixel too wide is out of step from its first frame on. -/
theorem wide_window_torn : ¬FrameProtocol ⟨maxWinW + 1, 1, by decide, by decide⟩ :=
  not_frameProtocol ⟨by decide, by decide⟩ (by decide)

end Aeryk.Compositor
