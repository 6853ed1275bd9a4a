import OpenMV.Sensor.Sensor
import Mathlib.Tactic.Linarith
import Mathlib.Tactic.Ring

/-! Sensor consistency | scheme:invariant | source:src/src/openmv/omv/sensor.c

    The pixel format is kept twice, in `sensor` and in the bus, and the frame geometry three times.
    The two copies of the format agree exactly in the runs in which no call gets as far as the bus with
    a format it has no mode for; a capture stays in its buffer exactly when three planes of the frame
    size in effect fit. -/

namespace OpenMV.Sensor
open Schemes

/-! ### The pixel format -/

/-- The call gets as far as the bus, with a format that has no mode. -/
def StrayFormat (env : Env) (s : State) (f : PixFormat) (driver : Bool) : Prop :=
  ¬Supported f ∧ s.pixformat ≠ f ∧ ¬(f = .jpeg ∧ (cropped env s ∨ s.transpose ∨ s.autoRotation)) ∧
    driver = true

theorem cambusSetPixformat_supported {f : PixFormat} (bus : Cambus) (h : Supported f) :
    ∃ f', cambusSetPixformat bus f = ({ bus with pixformat := f' }, f', 0) := by
  rcases h with rfl | rfl | rfl
  · exact ⟨.rgb565, rfl⟩
  · exact ⟨.rgb565, rfl⟩
  · exact ⟨.grayscale, rfl⟩

theorem cambusSetPixformat_unsupported {f : PixFormat} (bus : Cambus) (h : ¬Supported f) :
    cambusSetPixformat bus f = ({ bus with pixformat := f }, f, -1) := by
  cases f <;> simp [Supported, cambusSetPixformat] at h ⊢

/-- What a call does: nothing, with either result; both copies set; or only the one in the bus. -/
theorem setPixformat_cases (env : Env) (s : State) (f : PixFormat) (driver : Bool) :
    (¬StrayFormat env s f driver ∧ (sensorSetPixformat env s f driver).1 = s) ∨
    (¬StrayFormat env s f driver ∧ ∃ f', sensorSetPixformat env s f driver =
      ({ s with cambus := { s.cambus with pixformat := f' }, pixformat := f',
                fb := { s.fb with bpp := -1 } }, 0)) ∨
    (StrayFormat env s f driver ∧ sensorSetPixformat env s f driver =
      ({ s with cambus := { s.cambus with pixformat := f } }, -1)) := by
  unfold sensorSetPixformat
  split_ifs with h1 h2 h3 h4
  · exact .inl ⟨fun h => h.2.1 h1, rfl⟩
  · exact .inl ⟨fun h => h.1 (.inl h2.2.1), rfl⟩
  · exact .inl ⟨fun h => h.2.2.1 h3, rfl⟩
  · exact .inl ⟨fun h => by simp [h.2.2.2] at h4, rfl⟩
  · right
    by_cases hf : Supported f
    · left
      obtain ⟨f', hbus⟩ := cambusSetPixformat_supported s.cambus hf
      refine ⟨fun h => h.1 hf, f', ?_⟩
      rw [hbus]
      rfl
    · right
      refine ⟨⟨hf, h1, h3, by simpa using h4⟩, ?_⟩
      rw [cambusSetPixformat_unsupported s.cambus hf]
      rfl

/-- The frame does not fit as RGB565, so that a snapshot tries to switch to Bayer. -/
def Switches (s : State) : Prop := s.pixformat = .rgb565 ∧ exceeds (s.fb.u * s.fb.v * 2) s.fb.bufsz

instance (s : State) : Decidable (Switches s) := inferInstanceAs (Decidable (_ ∧ _))

/-- No format without a mode gets as far as the bus, neither by a call nor by a snapshot. -/
def KeepsFormat (env : Env) (s : State) (e : Event) : Prop :=
  s.hung = false → match e with
    | .setPixformat f driver => ¬StrayFormat env s f driver
    | .snapshot driver _ => Switches s → driver = false
    | _ => True

def FormatsAgree (s : State) : Prop := s.cambus.pixformat = s.pixformat

instance (s : State) : Decidable (FormatsAgree s) := inferInstanceAs (Decidable (_ = _))

theorem crop_formats (env : Env) (s : State) (bpp : ℤ) :
    (crop env s bpp).cambus = s.cambus ∧ (crop env s bpp).pixformat = s.pixformat := by
  unfold crop
  split <;> exact ⟨rfl, rfl⟩

/-- The state with the formats a snapshot works with: the switch to Bayer is tried if need be. -/
def switched (env : Env) (s : State) (driver : Bool) : State :=
  if Switches s then (sensorSetPixformat env s .bayer driver).1 else s

theorem checkBuffsize_formats (env : Env) (s : State) (driver : Bool) :
    (sensorCheckBuffsize env s driver).cambus = (switched env s driver).cambus ∧
    (sensorCheckBuffsize env s driver).pixformat = (switched env s driver).pixformat := by
  unfold sensorCheckBuffsize
  by_cases hsw : Switches s
  · rw [switched, if_pos hsw, hsw.1]
    simp only [checkBpp, if_neg (not_not.mpr hsw.2), if_true]
    split_ifs
    · exact crop_formats env _ 1
    · exact ⟨rfl, rfl⟩
  · rw [switched, if_neg hsw]
    split
    · exact ⟨rfl, rfl⟩
    · next bpp hb =>
      split_ifs with h1 h2
      · rw [h2] at hb
        cases hb
        exact absurd ⟨h2, h1⟩ hsw
      · exact crop_formats env s bpp
      · exact ⟨rfl, rfl⟩

theorem snapshot_formats (env : Env) (s : State) (driver capture : Bool) :
    (sensorSnapshot env s driver capture).1.cambus = (switched env s driver).cambus ∧
    (sensorSnapshot env s driver capture).1.pixformat = (switched env s driver).pixformat := by
  have h := checkBuffsize_formats env s driver
  unfold sensorSnapshot
  dsimp only
  split_ifs
  · exact h
  · exact h
  · exact h

theorem strayFormat_bayer (env : Env) {s : State} {driver : Bool} (h : Switches s) :
    StrayFormat env s .bayer driver ↔ driver = true := by
  refine ⟨fun hs => hs.2.2.2, fun hd => ⟨by decide, ?_, by simp, hd⟩⟩
  rw [h.1]
  decide

/-- A call keeps the agreement unless it brings a stray format to the bus, and then it breaks it. -/
theorem setPixformat_agree_iff {env : Env} {s : State} {f : PixFormat} {driver : Bool}
    (h : FormatsAgree s) :
    FormatsAgree (sensorSetPixformat env s f driver).1 ↔ ¬StrayFormat env s f driver := by
  rcases setPixformat_cases env s f driver with ⟨hn, heq⟩ | ⟨hn, f', heq⟩ | ⟨hs, heq⟩
  · rw [heq]
    exact ⟨fun _ => hn, fun _ => h⟩
  · rw [heq]
    exact ⟨fun _ => hn, fun _ => rfl⟩
  · rw [heq]
    exact ⟨fun ha => absurd ha.symm hs.2.1, fun hn => absurd hs hn⟩

theorem step_agree_iff {env : Env} {s : State} {e : Event} (h : FormatsAgree s) :
    FormatsAgree (step env s e) ↔ KeepsFormat env s e := by
  unfold step KeepsFormat
  cases hh : s.hung with
  | true => simp [h]
  | false =>
    simp only [Bool.false_eq_true, if_false, forall_const]
    cases e with
    | setPixformat f driver => exact setPixformat_agree_iff h
    | setFramesize n driver =>
      refine iff_of_true ?_ trivial
      simp only [sensorSetFramesize]
      split_ifs <;> exact h
    | setWindowing x y w h' =>
      refine iff_of_true ?_ trivial
      simp only [sensorSetWindowing]
      split_ifs <;> exact h
    | setTranspose enable =>
      refine iff_of_true ?_ trivial
      simp only [sensorSetTranspose]
      split_ifs <;> exact h
    | setAutoRotation enable =>
      refine iff_of_true ?_ trivial
      simp only [sensorSetAutoRotation]
      split_ifs <;> exact h
    | reset => exact iff_of_true rfl trivial
    | snapshot driver capture =>
      obtain ⟨h1, h2⟩ := snapshot_formats env s driver capture
      rw [FormatsAgree, h1, h2, switched]
      by_cases hsw : Switches s
      · simp only [hsw, if_true, forall_const]
        rw [← Bool.not_eq_true, ← strayFormat_bayer env hsw]
        exact setPixformat_agree_iff h
      · simp only [hsw, if_false, false_imp_iff, iff_true]
        exact h

/-- A call that returns -1 leaves both copies and the frame buffer as they were. -/
def FailureHarmless (env : Env) (s : State) (f : PixFormat) (driver : Bool) : Prop :=
  (sensorSetPixformat env s f driver).2 = -1 →
    (sensorSetPixformat env s f driver).1.pixformat = s.pixformat ∧
    (sensorSetPixformat env s f driver).1.cambus.pixformat = s.cambus.pixformat ∧
    (sensorSetPixformat env s f driver).1.fb = s.fb

theorem failureHarmless {env : Env} {s : State} {f : PixFormat} {driver : Bool}
    (h : ¬StrayFormat env s f driver) : FailureHarmless env s f driver := by
  intro hret
  rcases setPixformat_cases env s f driver with ⟨-, heq⟩ | ⟨-, f', heq⟩ | ⟨hs, -⟩
  · rw [heq]
    exact ⟨rfl, rfl, rfl⟩
  · rw [heq] at hret
    simp at hret
  · exact absurd hs h

/-- At every point of a run the two copies of the format agree, and every call of
    `sensor_set_pixformat` that fails has changed nothing. -/
def FormatSafe (env : Env) (es : List Event) : Prop :=
  (∀ pre, pre <+: es → FormatsAgree (run (step env) boot pre)) ∧
  ∀ pre f driver, pre ++ [.setPixformat f driver] <+: es → (run (step env) boot pre).hung = false →
    FailureHarmless env (run (step env) boot pre) f driver

theorem agree_run {env : Env} {es : List Event} (h : StepsMeet (step env) (KeepsFormat env) boot es) :
    FormatsAgree (run (step env) boot es) :=
  run_inv FormatsAgree (fun _ _ hs hk => (step_agree_iff hs).mpr hk) rfl h

theorem pixformat_consistent_iff (env : Env) (es : List Event) :
    FormatSafe env es ↔ StepsMeet (step env) (KeepsFormat env) boot es := by
  constructor
  · rintro ⟨hagree, -⟩
    refine stepsMeet_iff_forall.mpr fun pre e hpre => ?_
    have hstep := hagree _ hpre
    rw [run_concat] at hstep
    exact (step_agree_iff (hagree pre ((List.prefix_append _ _).trans hpre))).mp hstep
  · intro h
    refine ⟨fun pre hpre => agree_run (h.of_initial hpre), fun pre f driver hpre hhung => ?_⟩
    exact failureHarmless (stepsMeet_iff_forall.mp h pre _ hpre hhung)

/-- An environment for concrete runs. -/
def plainEnv : Env := ⟨fun _ => (0, 0), fun _ _ => (1, 1), 0⟩

/-- A Bayer format that the driver takes is refused by the bus, which keeps it. -/
theorem pixformat_bayer_half_set :
    ¬FormatSafe plainEnv [.setPixformat .rgb565 true, .setPixformat .bayer true] := by
  rintro ⟨hagree, -⟩
  exact absurd (hagree _ (List.prefix_refl _)) (by decide)

/-! ### The capture buffer -/

/-- Three planes of the frame size fit into the second half of the buffer. -/
def FitsPlanes (n : ℕ × ℕ) : Prop := 3 * (n.1 * n.2) ≤ rawBufSize

instance (n : ℕ × ℕ) : Decidable (FitsPlanes n) := inferInstanceAs (Decidable (_ ≤ _))

/-- The bus has the frame size in effect, and the window of the frame buffer lies in it. -/
structure GeometryOk (env : Env) (s : State) : Prop where
  bus : (s.cambus.width, s.cambus.height) = env.res s.framesize
  w_mem : 0 ≤ s.fb.w ∧ s.fb.w ≤ (env.res s.framesize).1
  h_mem : 0 ≤ s.fb.h ∧ s.fb.h ≤ (env.res s.framesize).2
  bpp : s.fb.bpp = -1 ∨ s.fb.bpp = 1 ∨ s.fb.bpp = 2 ∨ s.fb.bpp = 3 ∨ s.fb.bpp = 0 ∧ s.framesize = 0

/-- What does not matter for the geometry: the formats, and the crop. -/
structure SameGeometry (s s' : State) : Prop where
  framesize : s'.framesize = s.framesize
  width : s'.cambus.width = s.cambus.width
  height : s'.cambus.height = s.cambus.height
  w : s'.fb.w = s.fb.w
  h : s'.fb.h = s.fb.h
  bpp : s'.fb.bpp = s.fb.bpp ∨ s'.fb.bpp = -1

theorem SameGeometry.refl (s : State) : SameGeometry s s := ⟨rfl, rfl, rfl, rfl, rfl, .inl rfl⟩

theorem SameGeometry.keeps {env : Env} {s s' : State} (h : SameGeometry s s') (hs : GeometryOk env s) :
    GeometryOk env s' := by
  obtain ⟨hbus, hw, hh, hbpp⟩ := hs
  refine ⟨?_, ?_, ?_, ?_⟩
  · rw [h.width, h.height, h.framesize, hbus]
  · rw [h.w, h.framesize]
    exact hw
  · rw [h.h, h.framesize]
    exact hh
  · rw [h.framesize]
    rcases h.bpp with hb | hb
    · rwa [hb]
    · exact .inl hb

theorem setPixformat_geometry (env : Env) (s : State) (f : PixFormat) (driver : Bool) :
    SameGeometry s (sensorSetPixformat env s f driver).1 := by
  rcases setPixformat_cases env s f driver with ⟨-, heq⟩ | ⟨-, f', heq⟩ | ⟨-, heq⟩
  · rw [heq]
    exact .refl s
  · rw [heq]
    exact ⟨rfl, rfl, rfl, rfl, rfl, .inr rfl⟩
  · rw [heq]
    exact ⟨rfl, rfl, rfl, rfl, rfl, .inl rfl⟩

theorem crop_geometry (env : Env) (s : State) (bpp : ℤ) : SameGeometry s (crop env s bpp) := by
  unfold crop
  split <;> exact ⟨rfl, rfl, rfl, rfl, rfl, .inl rfl⟩

theorem SameGeometry.trans {s s' s'' : State} (h : SameGeometry s s') (h' : SameGeometry s' s'') :
    SameGeometry s s'' := by
  refine ⟨h'.framesize.trans h.framesize, h'.width.trans h.width, h'.height.trans h.height,
    h'.w.trans h.w, h'.h.trans h.h, ?_⟩
  rcases h'.bpp with hb | hb
  · rw [hb]
    exact h.bpp
  · exact .inr hb

theorem checkBuffsize_geometry (env : Env) (s : State) (driver : Bool) :
    SameGeometry s (sensorCheckBuffsize env s driver) := by
  have hset := setPixformat_geometry env s .bayer driver
  unfold sensorCheckBuffsize
  split
  · exact .refl s
  · dsimp only
    split_ifs
    · exact hset.trans (crop_geometry env _ 1)
    · exact hset
    · exact crop_geometry env s _
    · exact .refl s

theorem fixBpp_cases (bpp : ℤ) (f : PixFormat) :
    fixBpp bpp f = bpp ∨ fixBpp bpp f = 1 ∨ fixBpp bpp f = 2 ∨ fixBpp bpp f = 3 := by
  cases f <;> simp [fixBpp]

/-- The frame buffer after a snapshot that returns 0 is the returned image. -/
theorem geometryOk_snapshot {env : Env} {s : State} (driver capture : Bool) (h : GeometryOk env s) :
    GeometryOk env (sensorSnapshot env s driver capture).1 := by
  have hc := (checkBuffsize_geometry env s driver).keeps h
  unfold sensorSnapshot
  dsimp only
  split_ifs
  · exact hc
  · exact hc
  · refine ⟨hc.bus, hc.w_mem, hc.h_mem, ?_⟩
    have hb := hc.bpp
    dsimp only
    rcases fixBpp_cases (sensorCheckBuffsize env s driver).fb.bpp (sensorCheckBuffsize env s driver).pixformat
      with hf | hf | hf | hf
    · rwa [hf]
    · exact .inr (.inl hf)
    · exact .inr (.inr (.inl hf))
    · exact .inr (.inr (.inr (.inl hf)))

theorem geometryOk_window {env : Env} {s : State} {x y w h : ℤ} (hs : GeometryOk env s)
    (ha : windowAllowed env s x y w h) : GeometryOk env (sensorSetWindowing s x y w h).1 := by
  obtain ⟨hw, hh, hx, hxw, hy, hyh⟩ := ha
  unfold sensorSetWindowing
  split_ifs
  · exact hs
  · exact ⟨hs.bus, ⟨by dsimp only; omega, by dsimp only; omega⟩, ⟨by dsimp only; omega, by dsimp only; omega⟩,
      hs.bpp⟩

theorem geometryOk_step {env : Env} {s : State} {e : Event} (h : GeometryOk env s) (he : e ≠ .reset) :
    GeometryOk env (step env s e) := by
  unfold step
  split_ifs
  · exact h
  · cases e with
    | setPixformat f driver => exact (setPixformat_geometry env s f driver).keeps h
    | setFramesize n driver =>
      simp only [sensorSetFramesize]
      split_ifs
      · exact h
      · exact h
      · exact ⟨rfl, ⟨Int.natCast_nonneg _, le_rfl⟩, ⟨Int.natCast_nonneg _, le_rfl⟩, .inl rfl⟩
    | setWindowing x y w h' =>
      dsimp only
      split_ifs with ha
      · exact geometryOk_window h ha
      · exact h
    | setTranspose enable =>
      simp only [sensorSetTranspose]
      split_ifs
      · exact h
      · exact ⟨h.bus, h.w_mem, h.h_mem, h.bpp⟩
    | setAutoRotation enable =>
      simp only [sensorSetAutoRotation]
      split_ifs
      · exact h
      · exact ⟨h.bus, h.w_mem, h.h_mem, h.bpp⟩
    | reset => exact absurd rfl he
    | snapshot driver capture => exact geometryOk_snapshot driver capture h

theorem geometryOk_run (env : Env) {es : List Event} (h : .reset ∉ es) :
    GeometryOk env (run (step env) boot es) := by
  have hmeet : StepsMeet (step env) (fun _ e => e ≠ .reset) boot es :=
    stepsMeet_iff_forall.mpr fun pre e hpre he =>
      h (hpre.subset (List.mem_append_right pre (by simp [he])))
  exact run_inv (GeometryOk env) (fun _ _ => geometryOk_step)
    ⟨rfl, ⟨le_rfl, le_rfl⟩, ⟨le_rfl, le_rfl⟩, by decide⟩ hmeet

/-- What a snapshot that returns 0 has written: two regions of the buffer that do not meet, and an image
    that fits into the first half. -/
def CaptureSafe (bus : Cambus) (img : Snapshot) : Prop :=
  let a := (captureRegions bus).1
  let b := (captureRegions bus).2
  a.1 + a.2 ≤ fbBufSize ∧ b.1 + b.2 ≤ fbBufSize ∧ a.1 + a.2 ≤ b.1 ∧ imageSize img ≤ rawBufSize

instance (bus : Cambus) (img : Snapshot) : Decidable (CaptureSafe bus img) :=
  inferInstanceAs (Decidable (_ ∧ _))

theorem imageSize_le {env : Env} {s : State} (h : GeometryOk env s) (hfit : FitsPlanes (env.res s.framesize)) :
    imageSize ⟨s.fb.w, s.fb.h, s.fb.bpp⟩ ≤ rawBufSize := by
  obtain ⟨-, ⟨hw0, hw⟩, ⟨hh0, hh⟩, hbpp⟩ := h
  have hnn : 0 ≤ s.fb.w * s.fb.h := mul_nonneg hw0 hh0
  have hle : s.fb.w * s.fb.h ≤ (env.res s.framesize).1 * (env.res s.framesize).2 :=
    mul_le_mul hw hh hh0 (Int.natCast_nonneg _)
  have hfit' : 3 * (((env.res s.framesize).1 : ℤ) * (env.res s.framesize).2) ≤ rawBufSize := by
    exact_mod_cast hfit
  have htwo : s.fb.w * 2 * s.fb.h = 2 * (s.fb.w * s.fb.h) := by ring
  rcases hbpp with hb | hb | hb | hb | ⟨hb, hf⟩
  · simp [imageSize, hb]
  · simp only [imageSize, hb]
    norm_num
    linarith
  · simp only [imageSize, hb]
    norm_num
    linarith
  · simp only [imageSize, hb]
    norm_num
    linarith
  · -- no frame size was set, and the frame buffer is empty
    rw [hf, show (env.res 0).2 = 0 from rfl] at hh
    simp [imageSize, hb, show s.fb.h = 0 by push_cast at hh; omega]

/-- The capture is safe exactly when the planes of the frame size in effect fit. -/
theorem snapshot_capture_safe_iff (env : Env) (es : List Event) (driver capture : Bool) {s' : State}
    {img : Snapshot} (hes : .reset ∉ es)
    (hs : sensorSnapshot env (run (step env) boot es) driver capture = (s', some img)) :
    CaptureSafe s'.cambus img ↔ FitsPlanes (env.res (run (step env) boot es).framesize) := by
  have hok := geometryOk_run env hes
  generalize run (step env) boot es = s at hs hok
  have hframe : s'.framesize = s.framesize ∧ img = ⟨s'.fb.w, s'.fb.h, s'.fb.bpp⟩ := by
    have hsame := (checkBuffsize_geometry env s driver).framesize
    simp only [sensorSnapshot] at hs
    split_ifs at hs
    · simp at hs
    · simp at hs
    · cases hs
      exact ⟨hsame, rfl⟩
  have hok' : GeometryOk env s' := by
    have := geometryOk_snapshot driver capture hok
    rwa [hs] at this
  obtain ⟨hfs, rfl⟩ := hframe
  have hbus := hok'.bus
  rw [← hfs, ← hbus]
  simp only [CaptureSafe, captureRegions, FitsPlanes, fbBufSize, rawBufSize]
  constructor
  · rintro ⟨-, h, -⟩
    omega
  · intro h
    refine ⟨by omega, by omega, by omega, imageSize_le hok' ?_⟩
    rw [← hbus]
    exact h

theorem snapshot_capture_safe_qvga :
    ∃ s' img, sensorSnapshot plainEnv (run (step plainEnv) boot
        [.setPixformat .rgb565 true, .setFramesize 10 true, .setWindowing 4 4 100 50]) true true =
      (s', some img) ∧ CaptureSafe s'.cambus img :=
  ⟨_, _, rfl, (snapshot_capture_safe_iff plainEnv
    [.setPixformat .rgb565 true, .setFramesize 10 true, .setWindowing 4 4 100 50] true true
    (by decide) rfl).mpr (by decide)⟩

/-- A VGA frame in grayscale is not cropped, and its planes run over the end of the buffer. -/
theorem snapshot_capture_vga :
    ∃ s' img, sensorSnapshot plainEnv
        (run (step plainEnv) boot [.setPixformat .grayscale true, .setFramesize 11 true]) true true =
      (s', some img) ∧ ¬CaptureSafe s'.cambus img :=
  ⟨_, _, rfl, by decide⟩

end OpenMV.Sensor
