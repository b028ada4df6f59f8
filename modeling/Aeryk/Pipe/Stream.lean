import Aeryk.Lib.Fifo
import Aeryk.Pipe.Calls

/-!
# The stream law of a pipe

However the masked sections of the callers interleave, the bytes put into the pipe are the bytes
taken out of it followed by the bytes it holds, in order.  Only the byte-taking branch of
`pipe_read` and the byte-storing branch of `pipe_write` touch the ring.  The bytes taken are those
in the buffers of the readers, in the order in which each of them got its own (`Delivered`).
-/

namespace Aeryk

/-- The ring indices agree, and what was put is what was taken and what is buffered. -/
structure StreamOk (s : PipeSys) : Prop where
  ring : s.pipe.RingOk
  law : s.put = s.taken ++ s.pipe.buffered

/-- A step that leaves the ring and the two logs alone keeps the law. -/
theorem StreamOk.frame {s s' : PipeSys} (h : StreamOk s) (hbuf : s'.pipe.buf = s.pipe.buf)
    (hhead : s'.pipe.head = s.pipe.head) (htail : s'.pipe.tail = s.pipe.tail)
    (hcount : s'.pipe.count = s.pipe.count) (hput : s'.put = s.put)
    (htaken : s'.taken = s.taken) : StreamOk s' := by
  refine ⟨⟨?_, ?_, ?_⟩, ?_⟩
  · rw [hcount]; exact h.ring.count_le
  · rw [htail]; exact h.ring.tail_lt
  · rw [hhead, htail, hcount]; exact h.ring.head_eq
  · rw [hput, htaken, h.law]
    simp only [Pipe.buffered, hbuf, htail, hcount]

theorem streamOk_init : StreamOk PipeSys.init :=
  ⟨Pipe.pipeCreate_ringOk [], rfl⟩

/-- Taking a byte moves it from the buffer to the end of the taken bytes. -/
theorem StreamOk.readTake {s : PipeSys} (h : StreamOk s) (me : Pid) (got : List Byte)
    (count : Int) (hc : 0 < s.pipe.count) : StreamOk (readTake s me got count) := by
  have hlaw : s.put = (s.taken ++ [s.pipe.front]) ++ s.pipe.takeByte.buffered := by
    rw [h.law, h.ring.buffered_take hc, List.append_assoc, List.singleton_append]
  have hring := h.ring.takeByte hc
  unfold Aeryk.readTake
  split
  · exact ⟨hring, hlaw⟩
  · exact ⟨⟨hring.count_le, hring.tail_lt, hring.head_eq⟩, hlaw⟩

/-- Putting a byte appends it to the buffer and to the put bytes. -/
theorem StreamOk.writePut {s : PipeSys} (h : StreamOk s) (me : Pid) (buf : Nat → Byte) (n : Nat)
    (count : Int) (hc : s.pipe.count < pipeBufSize) : StreamOk (writePut s me buf n count) := by
  have hlaw : s.put ++ [buf n] = s.taken ++ (s.pipe.putByte (buf n)).buffered := by
    rw [h.law, h.ring.buffered_put hc, List.append_assoc]
  have hring := h.ring.putByte hc (buf n)
  unfold Aeryk.writePut
  split
  · exact ⟨hring, hlaw⟩
  · exact ⟨⟨hring.count_le, hring.tail_lt, hring.head_eq⟩, hlaw⟩

theorem StreamOk.readLoop {s : PipeSys} (h : StreamOk s) (me : Pid) (got : List Byte)
    (count : Int) : StreamOk (readLoop s me got count) := by
  unfold Aeryk.readLoop
  split
  · split
    next hc => exact h.readTake me got count hc
    next => split <;> exact h.frame rfl rfl rfl rfl rfl rfl
  · exact h.frame rfl rfl rfl rfl rfl rfl

theorem StreamOk.writeLoop {s : PipeSys} (h : StreamOk s) (me : Pid) (buf : Nat → Byte) (n : Nat)
    (count : Int) : StreamOk (writeLoop s me buf n count) := by
  unfold Aeryk.writeLoop
  split
  · split
    · exact h.frame rfl rfl rfl rfl rfl rfl
    · split
      next hc => exact h.writePut me buf n count hc
      next => exact h.frame rfl rfl rfl rfl rfl rfl
  · exact h.frame rfl rfl rfl rfl rfl rfl

theorem StreamOk.step {s s' : PipeSys} (st : PipeStep s s') (h : StreamOk s) : StreamOk s' := by
  cases st with
  | callRead | callWrite | dupRead | dupWrite => exact h.frame rfl rfl rfl rfl rfl rfl
  | callClose isReadEnd _ =>
    cases isReadEnd <;> exact h.frame rfl rfl rfl rfl rfl rfl
  | read _ => exact h.readLoop _ _ _
  | write _ => exact h.writeLoop _ _ _ _
  | readEnqueue | writeEnqueue | enqueueWriter | enqueueReader =>
    exact h.frame rfl rfl rfl rfl rfl rfl
  | popWriter =>
    unfold Aeryk.popWriter
    split <;> exact h.frame rfl rfl rfl rfl rfl rfl
  | popReader =>
    unfold Aeryk.popReader
    split <;> exact h.frame rfl rfl rfl rfl rfl rfl

theorem streamOk_of_reachable {s : PipeSys} (h : PipeReachable s) : StreamOk s :=
  h.invariant streamOk_init fun _ _ st hs => hs.step st

/-- The stream law.  In every reachable state of every interleaving, the bytes taken
out are a prefix of the bytes put in, the rest is what the buffer holds from `tail`
on, and the indices agree.  No byte is lost, duplicated or reordered. -/
theorem pipe_stream_law (s : PipeSys) (h : PipeReachable s) :
    s.put = s.taken ++ (List.range s.pipe.count).map
        (fun i => s.pipe.buf ((s.pipe.tail + i) % pipeBufSize)) ∧
      s.pipe.count ≤ pipeBufSize ∧
      s.pipe.head = (s.pipe.tail + s.pipe.count) % pipeBufSize := by
  have hs := streamOk_of_reachable h
  exact ⟨hs.law, hs.ring.count_le, hs.ring.head_eq⟩

/-! ## The buffers of the readers -/

/-- The bytes that a call of `pipe_read` has stored. -/
def Pc.got : Pc → List Byte
  | .reading got _ => got
  | .readWake _ got _ => got
  | .readSleep got _ => got
  | _ => []

/-- The bytes taken can be handed out to the processes such that each call has the last ones of
its process. -/
def Delivered (s : PipeSys) : Prop :=
  ∃ log : List (Pid × Byte), log.map Prod.snd = s.taken ∧
    ∀ me, (s.pc me).got <:+ Lib.handedTo me log

/-- A step that takes nothing, of a process that keeps its bytes or ends its call. -/
theorem Delivered.goto {s s' : PipeSys} (h : Delivered s) {me : Pid} {c : Pc}
    (htaken : s'.taken = s.taken) (hpc : s'.pc = Function.update s.pc me c)
    (hgot : c.got <:+ (s.pc me).got) : Delivered s' := by
  obtain ⟨log, hlog, hall⟩ := h
  refine ⟨log, hlog.trans htaken.symm, fun q => ?_⟩
  rw [hpc]
  by_cases hq : q = me
  · subst hq
    rw [Function.update_self]
    exact hgot.trans (hall q)
  · rw [Function.update_of_ne hq]
    exact hall q

theorem Delivered.take {s s' : PipeSys} (h : Delivered s) {me : Pid} {b : Byte} {c : Pc}
    (htaken : s'.taken = s.taken ++ [b]) (hpc : s'.pc = Function.update s.pc me c)
    (hgot : c.got = (s.pc me).got ++ [b]) : Delivered s' := by
  obtain ⟨log, hlog, hall⟩ := h
  refine ⟨log ++ [(me, b)], by rw [List.map_append, hlog, htaken]; rfl, fun q => ?_⟩
  rw [hpc, Lib.handedTo_snoc]
  by_cases hq : q = me
  · subst hq
    obtain ⟨earlier, heq⟩ := hall q
    rw [Function.update_self, if_pos rfl, hgot, ← heq, List.append_assoc]
    exact List.suffix_append _ _
  · rw [Function.update_of_ne hq, if_neg (Ne.symm hq), List.append_nil]
    exact hall q

theorem Delivered.readLoop {s : PipeSys} (h : Delivered s) {me : Pid} {got : List Byte}
    (hgot : (s.pc me).got = got) (count : Int) : Delivered (readLoop s me got count) := by
  unfold Aeryk.readLoop
  split
  · split
    · unfold readTake
      split <;> exact h.take rfl rfl (hgot ▸ rfl)
    · split
      · exact h.goto rfl rfl (List.nil_suffix)
      · exact h.goto rfl rfl (hgot ▸ List.suffix_refl _)
  · exact h.goto rfl rfl List.nil_suffix

theorem Delivered.step {s s' : PipeSys} (st : PipeStep s s') (h : Delivered s) : Delivered s' := by
  cases st with
  | dupRead | dupWrite => exact h
  | callRead | callWrite | callClose | writeEnqueue | enqueueWriter | enqueueReader =>
    exact h.goto rfl rfl List.nil_suffix
  | read hat =>
    refine h.readLoop ?_ _
    rcases hat with hat | ⟨hat, -⟩
    · rw [hat]; rfl
    · rw [hat]; rfl
  | readEnqueue hat => exact h.goto rfl rfl (hat ▸ List.suffix_refl _)
  | write =>
    unfold writeLoop writePut
    split
    · split
      · exact h.goto rfl rfl List.nil_suffix
      · split
        · split <;> exact h.goto rfl rfl List.nil_suffix
        · exact h.goto rfl rfl List.nil_suffix
    · exact h.goto rfl rfl List.nil_suffix
  | popWriter =>
    unfold Aeryk.popWriter
    split <;> exact h.goto rfl rfl List.nil_suffix
  | popReader =>
    unfold Aeryk.popReader
    split <;> exact h.goto rfl rfl List.nil_suffix

/-- Process 1 has put two bytes and process 2 has taken the first of them. -/
def oneByteBehind : PipeSys :=
  let buf : Nat → Byte := fun i => BitVec.ofNat 8 (i + 7)
  let s := PipeSys.init.goto 1 (.writing buf 0 2)
  let s := writeLoop (writeLoop s 1 buf 0 2) 1 buf 1 2
  readLoop (s.goto 2 (.reading [] 1)) 2 [] 1

theorem oneByteBehind_reachable : PipeReachable oneByteBehind :=
  (((((Relation.ReflTransGen.refl).tail (.callWrite _ 2 rfl)).tail (.write (.inl rfl))).tail
    (.write (.inl rfl))).tail (@PipeStep.callRead _ 2 _ 1 rfl)).tail (.read (.inl rfl))

theorem pipe_stream_law_oneByteBehind :
    oneByteBehind.taken = [7] ∧ oneByteBehind.pipe.count = 1 ∧
      oneByteBehind.put = oneByteBehind.taken ++ (List.range oneByteBehind.pipe.count).map
        (fun i => oneByteBehind.pipe.buf ((oneByteBehind.pipe.tail + i) % pipeBufSize)) :=
  ⟨rfl, rfl, (pipe_stream_law oneByteBehind oneByteBehind_reachable).1⟩

end Aeryk
