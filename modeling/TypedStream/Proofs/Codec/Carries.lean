import TypedStream.Codec.Basic
import TypedStream.Proofs.Decoding

/-!
# What a codec carries

A codec carries a value, in the form in which it is written, if reading the encoding gives the
value back and leaves what follows, for single values and for runs alike. The form of a value is
the value itself, except that the entries of a hash map are in the order in which they happen to
be listed. A run has to have a length that the codec admits.
-/

namespace TypedStream.Codec

/-- `lists value written` says that `written` is a form of `value`, and `fits count` that runs may
be that long. -/
structure Carries (codec : Codec α) (lists : α → α → Prop) (fits : Nat → Prop) : Prop where
  read : lists value written → ∀ rest,
    codec.read.run (codec.encode written ++ rest) = .ok (value, rest)
  readRun : List.Forall₂ lists values forms → fits values.length → ∀ rest,
    (codec.readRun values.length).run (forms.flatMap codec.encode ++ rest) = .ok (values, rest)
  runWrites : ∀ forms, (codec.runWrites forms).flatten = forms.flatMap codec.encode

theorem flatten_writes (codec : Codec α) (value : α) :
    (codec.writes value).flatten = codec.encode value := rfl

theorem flatten_runWrites_single (writes : α → List Bytes) (read : Decoder α) (values : List α) :
    ((single writes read).runWrites values).flatten =
      values.flatMap (single writes read).encode := by
  induction values with
  | nil => rfl
  | cons v vs ih =>
    have hcons : (single writes read).runWrites (v :: vs) =
        writes v ++ (single writes read).runWrites vs := rfl
    rw [hcons, List.flatten_append, ih, List.flatMap_cons]
    rfl

theorem flatten_runWrites_xmap {codec : Codec α}
    (h : ∀ values, (codec.runWrites values).flatten = values.flatMap codec.encode) (f : α → β)
    (g : β → α) (values : List β) :
    ((codec.xmap f g).runWrites values).flatten = values.flatMap (codec.xmap f g).encode := by
  show (codec.runWrites (values.map g)).flatten = _
  rw [h, List.flatMap_map]
  rfl

theorem carries_single {writes : α → List Bytes} {read : Decoder α} {lists : α → α → Prop}
    (h : ∀ {value written}, lists value written → ∀ rest,
      read.run ((writes written).flatten ++ rest) = .ok (value, rest)) (fits : Nat → Prop) :
    (single writes read).Carries lists fits where
  read := h
  readRun hall _ rest := Decoder.run_times (hall.imp fun _ _ hv => h hv) rest
  runWrites := flatten_runWrites_single writes read

theorem Carries.mono {codec : Codec α} {lists lists' : α → α → Prop} {fits fits' : Nat → Prop}
    (h : codec.Carries lists fits) (hl : ∀ {v w}, lists' v w → lists v w)
    (hf : ∀ {n}, fits' n → fits n) : codec.Carries lists' fits' where
  read hv := h.read (hl hv)
  readRun hall hn := h.readRun (hall.imp fun _ _ hv => hl hv) (hf hn)
  runWrites := h.runWrites

theorem Carries.empty {codec : Codec α} {lists : α → α → Prop} {fits : Nat → Prop}
    (h : codec.Carries lists fits) (hzero : fits 0) (fits' : Nat → Prop) :
    codec.Carries (fun _ _ => False) fits' where
  read hv := hv.elim
  readRun hall _ rest := by
    cases hall with
    | nil => exact h.readRun .nil hzero rest
    | cons hv _ => exact hv.elim
  runWrites := h.runWrites

theorem Carries.xmap {codec : Codec α} {lists : α → α → Prop} {fits : Nat → Prop}
    (h : codec.Carries lists fits) (f : α → β) (g : β → α) :
    (codec.xmap f g).Carries (fun v w => lists (g v) (g w) ∧ f (g v) = v) fits where
  read := by
    rintro v w ⟨hl, hv⟩ rest
    have hr := Decoder.run_map_ok (f := f) (h.read hl rest)
    rwa [hv] at hr
  readRun := by
    intro vs ws hall hn rest
    have himage : List.Forall₂ lists (vs.map g) (ws.map g) := by
      rw [List.forall₂_map_left_iff, List.forall₂_map_right_iff]
      exact hall.imp fun _ _ hv => hv.1
    have hback : (vs.map g).map f = vs := by
      clear himage hn
      induction hall with
      | nil => rfl
      | cons hv _ ih =>
        simp only [List.map_cons, hv.2]
        rw [ih]
    have hr := Decoder.run_map_ok (f := List.map f)
      (h.readRun himage (by simpa using hn) rest)
    rw [hback, List.length_map, List.flatMap_map] at hr
    exact hr
  runWrites := flatten_runWrites_xmap h.runWrites f g

end TypedStream.Codec
