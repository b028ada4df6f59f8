import Aeryk.Compositor.Proxy

/-!
# The end of a proxy

The frame loop of `run_proxy` ends when a `read` returns nothing, which happens once the client has
closed its end and all it sent has been read.  A turn is one pass of the inner loop, which reads at
least one byte of what is left, so the loop ends after as many turns as there are bytes, and one
more.

For a frame of no bytes the inner loop is never entered, and the proxy goes round for ever.
-/

namespace Aeryk.Compositor

namespace Proxy

/-- One turn of the frame loop, with what the client has sent and the proxy has not read.  A read
returns at most `limit` bytes, but at least one where there is one. -/
def turn (s : Proxy × List Byte) (limit : Nat) : Proxy × List Byte :=
  match s.1.phase with
  | .frames =>
    if s.1.got < s.1.frameBytes then
      let chunk := s.2.take (max 1 (min limit (s.1.frameBytes - s.1.got)))
      (s.1.read chunk, s.2.drop chunk.length)
    -- the inner loop is not entered, and the next pass of the outer one begins
    else ({ s.1 with got := 0 }, s.2)
  | _ => s

def turns (s : Proxy × List Byte) (limit : Nat → Nat) : Nat → Proxy × List Byte
  | 0 => s
  | k + 1 => turn (turns s limit k) (limit k)

/-- The loop has ended, and the slot is no longer active. -/
def Ended (p : Proxy) : Prop := p.phase = .exited ∧ p.slot.active = 0

section

variable {req : WindowRequest} {p : Proxy} {d rest : List Byte}

/-- The end of the stream ends the loop. -/
theorem Reading.turn_nil (h : Reading req p d) (hpos : 0 < p.frameBytes) (limit : Nat) :
    Ended (turn (p, []) limit).1 := by
  have hgot : p.got < p.frameBytes := h.got ▸ Nat.mod_lt _ hpos
  simp only [turn, h.phase, if_pos hgot, List.take_nil, Proxy.read]
  exact ⟨rfl, rfl⟩

/-- A turn before the end of the stream reads something. -/
theorem Reading.turn_cons (h : Reading req p d) (hpos : 0 < p.frameBytes) (hrest : rest ≠ [])
    (limit : Nat) :
    ∃ d', Reading req (turn (p, rest) limit).1 d' ∧
      (turn (p, rest) limit).2.length < rest.length := by
  have hgot : p.got < p.frameBytes := h.got ▸ Nat.mod_lt _ hpos
  have hlen := List.length_pos_iff.mpr hrest
  have hasked : p.asked = p.frameBytes - p.got := by
    unfold asked
    rw [h.phase]
  simp only [turn, h.phase, if_pos hgot]
  generalize hchunk : rest.take (max 1 (min limit (p.frameBytes - p.got))) = chunk
  have hsize : chunk.length = min (max 1 (min limit (p.frameBytes - p.got))) rest.length := by
    rw [← hchunk, List.length_take]
  have hne : chunk ≠ [] := List.length_pos_iff.mp (by omega)
  refine ⟨d ++ chunk, h.read hne (by omega), ?_⟩
  rw [List.length_drop]
  omega

theorem Reading.frameBytes_eq (h : Reading req p d) :
    p.frameBytes = min req.width maxWinW * min req.height maxWinH * 4 := by
  rw [frameBytes, h.w, h.h]

/-- The proxy has ended, or has read on and has fewer bytes left than turns were taken. -/
theorem Reading.turns (h : Reading req p d) (hpos : 0 < p.frameBytes) (rest : List Byte)
    (limit : Nat → Nat) (k : Nat) :
    Ended (turns (p, rest) limit k).1 ∨
      ∃ d', Reading req (turns (p, rest) limit k).1 d' ∧
        (turns (p, rest) limit k).2.length + k ≤ rest.length := by
  induction k with
  | zero => exact .inr ⟨d, h, Nat.le_refl _⟩
  | succ k ih =>
    rw [Proxy.turns]
    rcases ih with hended | ⟨d', hreading, hleft⟩
    · left
      rw [turn, hended.1]
      exact hended
    · have hbytes : 0 < (Proxy.turns (p, rest) limit k).1.frameBytes := by
        rw [hreading.frameBytes_eq, ← h.frameBytes_eq]
        exact hpos
      generalize Proxy.turns (p, rest) limit k = s at *
      obtain ⟨q, left⟩ := s
      dsimp only at hreading hleft hbytes
      cases left with
      | nil => exact .inl (hreading.turn_nil hbytes (limit k))
      | cons b left =>
        obtain ⟨d'', hnext, hless⟩ :=
          hreading.turn_cons hbytes (List.cons_ne_nil b left) (limit k)
        exact .inr ⟨d'', hnext, by omega⟩

/-- An empty frame keeps the proxy going round. -/
theorem Reading.spins (h : Reading req p d) (hzero : p.frameBytes = 0) (rest : List Byte)
    (limit : Nat → Nat) (k : Nat) : (Proxy.turns (p, rest) limit k).1.phase = .frames ∧
      (Proxy.turns (p, rest) limit k).1.frameBytes = 0 ∧
      (Proxy.turns (p, rest) limit k).1.slot.active = 1 ∧
      (Proxy.turns (p, rest) limit k).2 = rest := by
  induction k with
  | zero => exact ⟨h.phase, hzero, h.active, rfl⟩
  | succ k ih =>
    obtain ⟨hphase, hbytes, hactive, hleft⟩ := ih
    have hnone : ¬(Proxy.turns (p, rest) limit k).1.got <
        (Proxy.turns (p, rest) limit k).1.frameBytes := by omega
    rw [Proxy.turns]
    simp only [turn, hphase, if_neg hnone]
    exact ⟨trivial, hbytes, hactive, hleft⟩

end

end Proxy

/-- Whatever the client sends before it closes its end, the loop ends and the slot is left
inactive. -/
def Finishes (req : WindowRequest) : Prop :=
  ∀ (p : Proxy) (stream : List Byte) (limit : Nat → Nat), p.phase = .handshake →
    ∃ k, Proxy.Ended (Proxy.turns (p.read req.bytes, stream) limit k).1

/-- A window without pixels is never given up. -/
theorem not_finishes {req : WindowRequest} (h : req.width = 0 ∨ req.height = 0) :
    ¬Finishes req := by
  intro hfinishes
  have hstart := Proxy.reading_of_request (p := Proxy.start) req rfl
  have hzero : (Proxy.start.read req.bytes).frameBytes = 0 := by
    rw [hstart.frameBytes_eq]
    rcases h with h | h <;> simp [h]
  obtain ⟨k, hended, -⟩ := hfinishes Proxy.start [] (fun _ => 0) rfl
  have hspins := (hstart.spins hzero [] (fun _ => 0) k).1
  rw [hended] at hspins
  cases hspins

/-- The proxy finishes exactly for requests of a window that is not empty. -/
theorem proxy_finishes_iff (req : WindowRequest) :
    Finishes req ↔ 0 < req.width ∧ 0 < req.height := by
  constructor
  · intro hfinishes
    by_contra hempty
    exact not_finishes (by omega) hfinishes
  · rintro ⟨hwidth, hheight⟩ p stream limit hp
    have hstart := Proxy.reading_of_request (p := p) req hp
    have hpos : 0 < (p.read req.bytes).frameBytes := by
      rw [hstart.frameBytes_eq]
      exact Nat.mul_pos (Nat.mul_pos (Nat.lt_min.mpr ⟨hwidth, by decide⟩)
        (Nat.lt_min.mpr ⟨hheight, by decide⟩)) (by decide)
    refine ⟨stream.length + 1, ?_⟩
    rcases hstart.turns hpos stream limit (stream.length + 1) with hended | ⟨d, -, hleft⟩
    · exact hended
    · omega

/-- A client asks for a window of width 0. -/
theorem empty_window_spins : ¬Finishes ⟨0, 1, by decide, by decide⟩ := not_finishes (.inl rfl)

end Aeryk.Compositor
