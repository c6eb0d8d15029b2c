import Mathlib.Algebra.GroupWithZero.Nat
import Mathlib.Data.List.Basic
import PulseTrain.Playback
import PulseTrain.Proofs.FirstFault
import PulseTrain.Proofs.Frames

/-!
# Drawn signals

A signal is drawn into an array that is low everywhere: what is high in a frame is filled in, from where
the frame starts up to where it ends. Nothing in this says that the frames go together.

If each of them ends where the next begins, the slices lie side by side, and what is drawn is the levels
of the frames one after the other: `Signal.concat`, by `Signal.ofFrames_of_contiguous`. The induction is
along the frames, and what it carries is a row that is done up to the next frame and low from there on.

For any frames, `Signal.exists_ofFrames_iff` says when there is a signal at all: when the array exists,
and everything that is high in a frame is on it.
-/

namespace PulseTrain

/-- The frame can be drawn: its end is counted, and what is high in it is on the axis. -/
structure Frame.Drawable (arithmetic : Counter.Arithmetic) (channels samples : Nat) (f : Frame) :
    Prop where
  counted : arithmetic = .checked → f.index + f.duration < Counter.bound
  onAxis : ∀ channel < channels, f.level channel →
    (Signal.slice? samples f.index ((f.index + f.duration) % Counter.bound)).isSome

namespace Signal

open Counter

/-- The levels of a channel in frames, one frame after the other. -/
def run (fs : List Frame) (channel : Nat) : List Bool :=
  fs.flatMap fun f => List.replicate f.duration (f.level channel)

/-- The signal of frames of which each starts where the one before ends. All channels are low before the
first. -/
def concat (channels : Nat) (fs : List Frame) : Signal where
  samples := fs.getLast?.elim 0 fun f => f.index + f.duration
  rows := (List.range channels).map fun channel =>
    List.replicate (fs.head?.elim 0 (·.index)) false ++ run fs channel

variable {arithmetic : Arithmetic} {channels samples : Nat}

/-- The columns alone fit in an array. -/
theorem Fits.lt_limit (h : Fits channels samples) : samples < limit := by
  refine Nat.lt_of_le_of_lt ?_ h
  calc samples ≤ max 1 samples := Nat.le_max_right _ _
    _ = 1 * max 1 samples := (Nat.one_mul _).symm
    _ ≤ max 1 channels * max 1 samples := Nat.mul_le_mul_right _ (Nat.le_max_left _ _)

/-- What fits in an array fits in a counter. -/
theorem limit_lt_bound : limit < bound := by decide

/-! ## Slices on the axis -/

/-- In the lower half of the counts an index is a place. -/
theorem slice?_of_le {length start stop : Nat} (hstart : start ≤ stop) (hstop : stop ≤ length)
    (hlength : length < limit) : slice? length start stop = some (start, stop) := by
  have hplace : ∀ i ≤ length, place? length i = some i := fun i hi =>
    if_pos (Nat.lt_of_le_of_lt hi hlength)
  unfold slice?
  rw [hplace start (Nat.le_trans hstart hstop), hplace stop hstop]
  show (if max start stop ≤ length then some (start, max start stop) else none) = _
  rw [Nat.max_eq_right hstart, if_pos hstop]

/-- Filling goes on where a row is done. -/
theorem fill_append (done : List Bool) {duration rest : Nat} (hle : duration ≤ rest)
    (hlimit : done.length + rest < limit) :
    fill (done ++ List.replicate rest false) done.length (done.length + duration)
      = .ok (done ++ List.replicate duration true ++ List.replicate (rest - duration) false) := by
  have hslice : slice? (done ++ List.replicate rest false).length done.length
      (done.length + duration) = some (done.length, done.length + duration) := by
    rw [List.length_append, List.length_replicate]
    exact slice?_of_le (Nat.le_add_right _ _) (Nat.add_le_add_left hle _) hlimit
  unfold fill
  rw [hslice]
  simp [List.drop_append]

/-- Draws a frame that ends at `stop` on the row of a channel. -/
def drawRow (f : Frame) (stop : Nat) (p : List Bool × Nat) : Except Halt (List Bool) :=
  if f.level p.2 then fill p.1 f.index stop else pure p.1

/-- Drawing is done row by row. -/
theorem draw_eq_ok {f : Frame} {row row' : Nat → List Bool}
    (hstop : f.index + f.duration < bound)
    (hrow : ∀ channel < channels,
      drawRow f (f.index + f.duration) (row channel, channel) = .ok (row' channel)) :
    draw arithmetic ⟨samples, (List.range channels).map row⟩ f
      = .ok ⟨samples, (List.range channels).map row'⟩ := by
  -- Every row is drawn with the number of its own channel.
  have hzip : ((List.range channels).map row).zipIdx
      = (List.range channels).map fun channel => (row channel, channel) := by
    refine List.ext_getElem (by simp) fun i hi hi' => ?_
    simp
  have hrows : ((List.range channels).map fun channel => (row channel, channel)).mapM
      (drawRow f (f.index + f.duration)) = .ok ((List.range channels).map row') := by
    refine mapM_eq_ok_iff.mpr ?_
    rw [List.forall₂_map_left_iff, List.forall₂_map_right_iff, List.forall₂_same]
    exact fun channel hchannel => hrow channel (List.mem_range.mp hchannel)
  refine bind_eq_ok_iff.mpr ⟨_, Arithmetic.count_of_lt arithmetic hstop, ?_⟩
  rw [hzip]
  exact bind_eq_ok_iff.mpr ⟨_, hrows, rfl⟩

/-! ## Frames side by side -/

theorem run_cons (f : Frame) (fs : List Frame) (channel : Nat) :
    run (f :: fs) channel = List.replicate f.duration (f.level channel) ++ run fs channel :=
  List.flatMap_cons

/-- Each frame is drawn where the rows are done, and takes them further. -/
theorem foldlM_draw {fs : List Frame} (hfs : Frame.Contiguous fs) {start : Nat}
    (hstart : ∀ f ∈ fs.head?, f.index = start) {done : Nat → List Bool}
    (hdone : ∀ channel, (done channel).length = start)
    (hlimit : start + (fs.map (·.duration)).sum < limit) :
    fs.foldlM (draw arithmetic) ⟨samples, (List.range channels).map fun channel =>
        done channel ++ List.replicate (fs.map (·.duration)).sum false⟩
      = .ok ⟨samples, (List.range channels).map fun channel => done channel ++ run fs channel⟩ := by
  induction fs generalizing start done with
  | nil =>
    simp [run, pure, Except.pure]
  | cons f fs ih =>
    -- By induction on the frames: `f` fills the next `f.duration` samples of the zeros that are left.
    have hindex : f.index = start := hstart f rfl
    rw [List.map_cons, List.sum_cons] at hlimit
    have hdraw : draw arithmetic ⟨samples, (List.range channels).map fun channel =>
          done channel ++ List.replicate ((f :: fs).map (·.duration)).sum false⟩ f
        = .ok ⟨samples, (List.range channels).map fun channel =>
          (done channel ++ List.replicate f.duration (f.level channel))
            ++ List.replicate (fs.map (·.duration)).sum false⟩ := by
      refine draw_eq_ok (by have := limit_lt_bound; omega) fun channel _ => ?_
      rw [drawRow, List.map_cons, List.sum_cons]
      -- A high level is written over the zeros, and a low one leaves them as they are.
      split
      · rename_i hlevel
        have hle : f.duration ≤ f.duration + (fs.map (·.duration)).sum := Nat.le_add_right _ _
        have hfill := fill_append (done channel) hle (by rw [hdone]; exact hlimit)
        rw [hdone, ← hindex, Nat.add_sub_cancel_left] at hfill
        rw [hfill, hlevel]
      · rename_i hlevel
        rw [Bool.not_eq_true] at hlevel
        rw [hlevel, List.append_assoc, List.replicate_append_replicate]
        rfl
    rw [List.foldlM_cons, hdraw]
    -- The next frame starts where `f` stops.
    have hnext : ∀ g ∈ fs.head?, g.index = start + f.duration := fun g hg => by
      cases fs with
      | nil => cases hg
      | cons next rest =>
        cases hg
        rw [← (List.isChain_cons_cons.mp hfs).1, hindex]
    have hgrown : ∀ channel, (done channel ++ List.replicate f.duration (f.level channel)).length
        = start + f.duration := fun channel => by simp [hdone]
    have hrest := ih hfs.tail hnext hgrown (by omega)
    refine hrest.trans ?_
    simp only [run_cons, List.append_assoc]

/-- Side by side, frames end where all durations have passed. -/
theorem stop_of_contiguous {fs : List Frame} (hfs : Frame.Contiguous fs) :
    (fs.getLast?.elim 0 fun f => f.index + f.duration)
      = fs.head?.elim 0 (·.index) + (fs.map (·.duration)).sum := by
  induction fs with
  | nil => rfl
  -- By induction, the last frame of the rest stops where the durations of all frames lead.
  | cons f fs ih =>
    cases fs with
    | nil => rfl
    | cons next rest =>
      have hnext : f.index + f.duration = next.index := (List.isChain_cons_cons.mp hfs).1
      have hrest := ih hfs.tail
      rw [List.getLast?_cons_cons, hrest]
      simp only [List.head?_cons, Option.elim_some, List.map_cons, List.sum_cons]
      omega

/-- **Frames side by side are drawn one after the other.** -/
theorem ofFrames_of_contiguous {fs : List Frame} (hfs : Frame.Contiguous fs)
    (hfits : Fits channels (concat channels fs).samples) :
    ofFrames arithmetic channels fs = .ok (concat channels fs) := by
  have hlimit := hfits.lt_limit
  have hcount := Arithmetic.count_of_lt arithmetic (Nat.lt_trans hlimit limit_lt_bound)
  have hlow : low channels (concat channels fs).samples
      = .ok ⟨(concat channels fs).samples, (List.range channels).map fun _ =>
          List.replicate (fs.head?.elim 0 (·.index)) false
            ++ List.replicate (fs.map (·.duration)).sum false⟩ := by
    rw [low, if_pos hfits, List.map_const', List.length_range, List.replicate_append_replicate,
      ← stop_of_contiguous hfs]
    rfl
  -- The axis starts all low, up to the first frame and under all of the frames.
  have hhead : ∀ f ∈ fs.head?, f.index = fs.head?.elim 0 (·.index) := fun f hf => by
    rw [hf]
    rfl
  refine bind_eq_ok_iff.mpr ⟨_, hcount, bind_eq_ok_iff.mpr ⟨_, hlow, ?_⟩⟩
  refine foldlM_draw hfs hhead (fun _ => List.length_replicate) ?_
  rw [← stop_of_contiguous hfs]
  exact hlimit

/-! ## Whether there is a signal -/

/-- A slice that is taken lies on the axis. -/
theorem le_of_slice? {length start stop first after : Nat}
    (h : slice? length start stop = some (first, after)) : first ≤ after ∧ after ≤ length := by
  unfold slice? at h
  simp only [Option.bind_eq_bind, Option.bind_eq_some_iff, Option.ite_none_right_eq_some,
    Option.some.injEq, Prod.mk.injEq] at h
  obtain ⟨start', -, stop', -, hle, rfl, rfl⟩ := h
  exact ⟨Nat.le_max_left _ _, hle⟩

/-- A row is filled if the slice is on it, and it stays as long. -/
theorem exists_fill_iff {row : List Bool} {start stop : Nat} :
    (∃ row', fill row start stop = .ok row') ↔ (slice? row.length start stop).isSome := by
  unfold fill
  cases slice? row.length start stop <;> simp

/-- Filling does not change the length of a row. -/
theorem length_of_fill {row row' : List Bool} {start stop : Nat}
    (h : fill row start stop = .ok row') : row'.length = row.length := by
  unfold fill at h
  cases hslice : slice? row.length start stop with
  | none =>
    rw [hslice] at h
    cases h
  | some range =>
    rw [hslice] at h
    cases h
    obtain ⟨hfirst, hafter⟩ := le_of_slice? hslice
    simp only [List.length_append, List.length_take, List.length_replicate, List.length_drop]
    omega

/-- The row of a channel that is low in the frame is never out of reach. -/
theorem exists_drawRow_iff {f : Frame} {stop : Nat} {row : List Bool} {channel : Nat} :
    (∃ row', drawRow f stop (row, channel) = .ok row')
      ↔ (f.level channel → (slice? row.length f.index stop).isSome) := by
  unfold drawRow
  split
  · rename_i hlevel
    simp only [show f.level channel = true from hlevel, true_imp_iff, exists_fill_iff]
  · rename_i hlevel
    exact iff_of_true ⟨row, rfl⟩ fun h => absurd h hlevel

/-- Neither does drawing on it. -/
theorem length_of_drawRow {f : Frame} {stop channel : Nat} {row row' : List Bool}
    (h : drawRow f stop (row, channel) = .ok row') : row'.length = row.length := by
  unfold drawRow at h
  split at h
  · exact length_of_fill h
  · cases h
    rfl

/-- There is a row for every channel, with a level for every sample. -/
structure Sized (channels : Nat) (sig : Signal) : Prop where
  rows_length : sig.rows.length = channels
  row_length : ∀ row ∈ sig.rows, row.length = sig.samples

/-- The signal that is low everywhere has the size that it was made with. -/
theorem sized_low {sig : Signal} (h : low channels samples = .ok sig) :
    sig.Sized channels ∧ sig.samples = samples ∧ Fits channels samples := by
  unfold low at h
  split at h
  · rename_i hfits
    cases h
    exact ⟨⟨List.length_replicate, fun row hrow => by
      rw [List.eq_of_mem_replicate hrow, List.length_replicate]⟩, rfl, hfits⟩
  · cases h

variable {sig sig' : Signal} {f : Frame}

/-- A frame is drawn exactly if its end is counted and every row of it can be drawn. -/
theorem draw_eq_ok_iff : draw arithmetic sig f = .ok sig'
    ↔ (arithmetic = .checked → f.index + f.duration < bound)
      ∧ sig'.samples = sig.samples
      ∧ sig.rows.zipIdx.mapM (drawRow f ((f.index + f.duration) % bound)) = .ok sig'.rows := by
  obtain ⟨samples', rows'⟩ := sig'
  unfold draw
  simp only [bind_eq_ok_iff, Arithmetic.count_eq_ok_iff]
  constructor
  · rintro ⟨stop, ⟨rfl, hcounted⟩, rows, hrows, h⟩
    cases h
    exact ⟨hcounted, rfl, hrows⟩
  · rintro ⟨hcounted, rfl, hrows⟩
    exact ⟨_, ⟨rfl, hcounted⟩, _, hrows, rfl⟩

/-- Drawing changes neither the number of rows nor their length. -/
theorem Sized.draw (hsig : sig.Sized channels) (h : draw arithmetic sig f = .ok sig') :
    sig'.Sized channels ∧ sig'.samples = sig.samples := by
  obtain ⟨-, hsamples, hrows⟩ := draw_eq_ok_iff.mp h
  refine ⟨⟨?_, fun row' hrow' => ?_⟩, hsamples⟩
  · rw [← (mapM_eq_ok_iff.mp hrows).length_eq, List.length_zipIdx, hsig.rows_length]
  · obtain ⟨⟨row, channel⟩, hmem, hrow⟩ := exists_of_mem_mapM hrows hrow'
    have hlength : row.length = sig.samples :=
      hsig.row_length row (List.fst_mem_of_mem_zipIdx hmem)
    rw [hsamples, ← hlength]
    exact length_of_drawRow hrow

/-- A frame is drawn exactly if it can be. -/
theorem Sized.exists_draw_iff (hsig : sig.Sized channels) :
    (∃ sig', Signal.draw arithmetic sig f = .ok sig')
      ↔ f.Drawable arithmetic channels sig.samples := by
  -- A row is only sliced when its channel is high, and only then can the slice fail.
  have hrow : ∀ row channel, (row, channel) ∈ sig.rows.zipIdx →
      ((∃ row', drawRow f ((f.index + f.duration) % bound) (row, channel) = .ok row')
        ↔ (f.level channel →
          (slice? sig.samples f.index ((f.index + f.duration) % bound)).isSome)) := by
    intro row channel hmem
    rw [← hsig.row_length row (List.fst_mem_of_mem_zipIdx hmem)]
    exact exists_drawRow_iff
  constructor
  · rintro ⟨sig', h⟩
    obtain ⟨hcounted, -, hrows⟩ := draw_eq_ok_iff.mp h
    refine ⟨hcounted, fun channel hchannel => ?_⟩
    rw [← hsig.rows_length] at hchannel
    have hmem : (sig.rows[channel], channel) ∈ sig.rows.zipIdx :=
      List.mem_zipIdx_iff_getElem?.mpr (List.getElem?_eq_getElem hchannel)
    exact (hrow _ _ hmem).mp (exists_mapM_eq_ok_iff.mp ⟨_, hrows⟩ _ hmem)
  · intro h
    have hrows : ∃ rows, sig.rows.zipIdx.mapM (drawRow f ((f.index + f.duration) % bound))
        = .ok rows := by
      refine exists_mapM_eq_ok_iff.mpr fun ⟨row, channel⟩ hmem => ?_
      refine (hrow row channel hmem).mpr (h.onAxis channel ?_)
      rw [← hsig.rows_length]
      exact List.snd_lt_of_mem_zipIdx hmem
    obtain ⟨rows, hrows⟩ := hrows
    exact ⟨⟨sig.samples, rows⟩, draw_eq_ok_iff.mpr ⟨h.counted, rfl, hrows⟩⟩

/-- Frames are drawn one after the other if each of them can be. -/
theorem Sized.exists_foldlM_draw_iff {fs : List Frame} (hsig : sig.Sized channels) :
    (∃ sig', fs.foldlM (Signal.draw arithmetic) sig = .ok sig')
      ↔ ∀ f ∈ fs, f.Drawable arithmetic channels sig.samples := by
  -- Drawing never changes the length of the axis, so the frames fail or not independently of each other.
  induction fs generalizing sig with
  | nil => exact iff_of_true ⟨sig, rfl⟩ fun _ hf => by cases hf
  | cons f fs ih =>
    rw [List.forall_mem_cons, ← hsig.exists_draw_iff, List.foldlM_cons]
    cases hdraw : Signal.draw arithmetic sig f with
    | error reason => simp [bind, Except.bind]
    | ok sig' =>
      obtain ⟨hsized, hsamples⟩ := hsig.draw hdraw
      rw [← hsamples, ← ih hsized]
      simp [bind, Except.bind]

/-- The size of what is drawn. -/
theorem Sized.foldlM_draw {fs : List Frame} (hsig : sig.Sized channels)
    (h : fs.foldlM (Signal.draw arithmetic) sig = .ok sig') :
    sig'.Sized channels ∧ sig'.samples = sig.samples := by
  induction fs generalizing sig with
  | nil =>
    cases h
    exact ⟨hsig, rfl⟩
  | cons f fs ih =>
    rw [List.foldlM_cons] at h
    obtain ⟨next, hdraw, hrest⟩ := bind_eq_ok_iff.mp h
    obtain ⟨hsized, hsamples⟩ := hsig.draw hdraw
    rw [← hsamples]
    exact ih hsized hrest

/-- The array of a signal exists. -/
theorem fits_of_ofFrames {fs : List Frame} (h : ofFrames arithmetic channels fs = .ok sig) :
    sig.Sized channels ∧ Fits channels sig.samples := by
  obtain ⟨samples, -, h⟩ := bind_eq_ok_iff.mp h
  obtain ⟨start, hlow, h⟩ := bind_eq_ok_iff.mp h
  obtain ⟨hsized, hsamples, hfits⟩ := sized_low hlow
  obtain ⟨hdrawn, hsamples'⟩ := hsized.foldlM_draw h
  rw [hsamples', hsamples]
  exact ⟨hdrawn, hfits⟩

/-- The frames can be drawn: there is an array for them, and everything that is high in one of them is
on it. -/
structure Drawable (arithmetic : Arithmetic) (channels : Nat) (fs : List Frame) : Prop where
  counted : arithmetic = .checked → (concat channels fs).samples < bound
  fits : Fits channels ((concat channels fs).samples % bound)
  frames : ∀ f ∈ fs, f.Drawable arithmetic channels ((concat channels fs).samples % bound)

/-- **When there is a signal.** -/
theorem exists_ofFrames_iff {fs : List Frame} :
    (∃ sig, ofFrames arithmetic channels fs = .ok sig) ↔ Drawable arithmetic channels fs := by
  -- The end is counted, the axis is laid out and the frames are drawn, in this order, and each can fail.
  constructor
  · rintro ⟨sig, h⟩
    obtain ⟨samples, hcount, hrest⟩ := bind_eq_ok_iff.mp h
    obtain ⟨start, hlow, hdrawn⟩ := bind_eq_ok_iff.mp hrest
    obtain ⟨rfl, hcounted⟩ := Arithmetic.count_eq_ok_iff.mp hcount
    obtain ⟨hsized, hsamples, hfits⟩ := sized_low hlow
    refine ⟨hcounted, hfits, ?_⟩
    have hall := hsized.exists_foldlM_draw_iff.mp ⟨sig, hdrawn⟩
    rwa [hsamples] at hall
  · rintro ⟨hcounted, hfits, hframes⟩
    have hlow : low channels ((concat channels fs).samples % bound) = .ok _ := if_pos hfits
    obtain ⟨hsized, hsamples, -⟩ := sized_low hlow
    obtain ⟨sig, h⟩ := hsized.exists_foldlM_draw_iff.mpr (hsamples.symm ▸ hframes)
    exact ⟨sig, bind_eq_ok_iff.mpr ⟨_, Arithmetic.count_eq_ok_iff.mpr ⟨rfl, hcounted⟩,
      bind_eq_ok_iff.mpr ⟨_, hlow, h⟩⟩⟩

end Signal

end PulseTrain
