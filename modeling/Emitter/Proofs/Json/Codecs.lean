import Emitter.Proofs.Json.Doubles
import Emitter.Proofs.Json.Text
import Emitter.Program.Decode
import Emitter.Program.Encode

/-!
# Encodings that decode

How deep a value nests, and what it means that a decoder undoes an encoding: what is written within
the decoder's budget is read back, and what is read can be written within the budget again. Both are
carried from the fields of a record to the record, and from the data of the cases to the choice.
-/

namespace Emitter.Json

open Number

mutual

/-- How many arrays and objects are nested in the value at most. -/
def depth : Json → ℕ
  | array items => itemsDepth items + 1
  | object members => membersDepth members + 1
  | _ => 0

def itemsDepth : List Json → ℕ
  | [] => 0
  | item :: rest => max item.depth (itemsDepth rest)

def membersDepth : List (Option String × Json) → ℕ
  | [] => 0
  | (_, value) :: rest => max value.depth (membersDepth rest)

end

theorem itemsDepth_le {items : List Json} {b : ℕ} :
    itemsDepth items ≤ b ↔ ∀ item ∈ items, item.depth ≤ b := by
  induction items with
  | nil => simp [itemsDepth]
  | cons item rest ih => simp [itemsDepth, ih]

theorem membersDepth_le {members : List (String × Json)} {b : ℕ} :
    membersDepth (keyed members) ≤ b ↔ ∀ m ∈ members, m.2.depth ≤ b := by
  induction members with
  | nil => simp [membersDepth]
  | cons m rest ih => simpa [membersDepth] using fun _ => ih

theorem depth_array_le {items : List Json} {b : ℕ} :
    (array items).depth ≤ b + 1 ↔ ∀ item ∈ items, item.depth ≤ b := by
  rw [depth, Nat.add_le_add_iff_right, itemsDepth_le]

theorem depth_record_le {members : List (String × Json)} {b : ℕ} :
    (record members).depth ≤ b + 1 ↔ ∀ m ∈ members, m.2.depth ≤ b := by
  rw [show record members = object (keyed members) from rfl, depth, Nat.add_le_add_iff_right,
    membersDepth_le]

theorem depth_lt_array {items : List Json} : ∀ item ∈ items, item.depth < (array items).depth :=
  fun item hitem => Nat.lt_add_one_of_le (itemsDepth_le.mp le_rfl item hitem)

theorem depth_lt_record {members : List (String × Json)} :
    ∀ m ∈ members, m.2.depth < (record members).depth :=
  fun m hm => Nat.lt_add_one_of_le (membersDepth_le.mp le_rfl m hm)

theorem depth_holding_le {name : String} {data : Json} {b : ℕ} :
    (Program.holding name data).depth ≤ b + 1 ↔ data.depth ≤ b := by
  simp [Program.holding, depth_record_le]

namespace Decoder

variable {α β π : Type} {limit slack : ℕ}

/-- What is made of a good value is read back from the value's encoding, for budgets below the
limit; and what is read with enough budget is made of a good value whose encoding is within the
budget. -/
structure Codec (limit slack : ℕ) (good : π → Prop) (make : π → α) (decode : Decoder α)
    (encode : π → Json) : Prop where
  reads : ∀ {p b}, good p → (encode p).depth ≤ b → b < limit → decode b (encode p) = some (make p)
  plain : ∀ {p}, good p → (encode p).depth < limit → (encode p).Plain
  within : ∀ {b j x}, slack ≤ b → decode b j = some x →
    ∃ p, good p ∧ make p = x ∧ (encode p).depth ≤ b

/-- Every value is good. -/
@[simp] abbrev anything (_ : π) : Prop := True

/-- Without any budget nothing is within the limit. -/
theorem Codec.exhausted {good : π → Prop} {make : π → α} {encode : π → Json} :
    Codec 0 slack good make (fun _ _ => none) encode :=
  ⟨fun _ _ hb => absurd hb (Nat.not_lt_zero _), fun _ hdepth => absurd hdepth (Nat.not_lt_zero _),
    fun _ hx => nomatch hx⟩

section

variable {good : π → Prop} {make : π → α} {decode : Decoder α} {encode : π → Json}

theorem Codec.mono {limit' slack' : ℕ} (h : Codec limit slack good make decode encode)
    (hlimit : limit' ≤ limit) (hslack : slack ≤ slack') :
    Codec limit' slack' good make decode encode :=
  ⟨fun hp hdepth hb => h.reads hp hdepth (by omega), fun hp hdepth => h.plain hp (by omega),
    fun hb => h.within (by omega)⟩

theorem Codec.map (h : Codec limit slack good make decode encode) (f : α → β) :
    Codec limit slack good (f ∘ make) (decode.map f) encode where
  reads hp hdepth hb := by simp [Decoder.map, h.reads hp hdepth hb]
  plain := h.plain
  within {b j y} hb hy := by
    obtain ⟨x, hx, rfl⟩ := Option.map_eq_some_iff.mp hy
    obtain ⟨p, hp, rfl, hdepth⟩ := h.within hb hx
    exact ⟨p, hp, rfl, hdepth⟩

/-- A codec of the parts of values, as one of the values. -/
theorem Codec.of (h : Codec limit slack good make decode encode) {good' : α → Prop}
    {encode' : α → Json} (parts : α → π)
    (hparts : ∀ x, good' x → good (parts x) ∧ make (parts x) = x)
    (hmake : ∀ p, good p → good' (make p) ∧ encode' (make p) = encode p) :
    Codec limit slack good' id decode encode' := by
  have hencode : ∀ x, good' x → encode' x = encode (parts x) := fun x hx => by
    obtain ⟨hp, hx⟩ := hparts x hx
    rw [← (hmake _ hp).2, hx]
  refine ⟨fun {x b} hx hdepth hb => ?_, fun {x} hx hdepth => ?_, fun hb hx => ?_⟩
  · rw [hencode x hx] at hdepth ⊢
    rw [h.reads (hparts x hx).1 hdepth hb, (hparts x hx).2, id]
  · rw [hencode x hx] at hdepth ⊢
    exact h.plain (hparts x hx).1 hdepth
  · obtain ⟨p, hp, rfl, hdepth⟩ := h.within hb hx
    exact ⟨make p, (hmake p hp).1, rfl, by rwa [(hmake p hp).2]⟩

end

theorem text_codec : Codec limit slack anything id text ofString where
  reads _ _ _ := rfl
  plain _ _ := .string _
  within {b j x} _ hx := by
    match j, hx with
    | .string (some s), rfl => exact ⟨s, trivial, rfl, Nat.zero_le _⟩

theorem truth_codec : Codec limit slack anything id truth Json.bool where
  reads _ _ _ := rfl
  plain _ _ := .bool _
  within {b j x} _ hx := by
    match j, hx with
    | .bool c, rfl => exact ⟨c, trivial, rfl, Nat.zero_le _⟩

theorem float_codec :
    Codec limit slack (fun x => x.isFinite = true) id Decoder.float Program.ofFloat where
  reads hp _ _ := by
    simp [Program.ofFloat, Decoder.float, Numeral.toBinary64_ofBinary64 hp, hp]
  plain {x} _ _ := by
    refine .number ?_
    unfold Numeral.ofBinary64 Numeral.Writable
    simp only
    split_ifs <;> simp
    omega
  within {b j x} _ hx := by
    match j, hx with
    | .number n, hx =>
      have hfinite := (Option.filter_eq_some_iff.mp
        (show Option.filter (·.isFinite) (some n.toBinary64) = some x from hx)).2
      exact ⟨x, hfinite, rfl, Nat.zero_le _⟩

theorem char_codec :
    Codec limit slack anything id Decoder.char fun c => ofString (String.singleton c) where
  reads _ _ _ := by simp [Decoder.char, ofString]
  plain _ _ := .string _
  within {b j x} _ _ := ⟨x, trivial, rfl, Nat.zero_le _⟩

theorem integer_codec (low high : ℤ) :
    Codec limit slack (fun n => low ≤ n ∧ n ≤ high) id (integer low high) ofInt where
  reads {n b} hn _ _ := by
    have hint : (Numeral.ofInt n).toInt? = some n := by
      simp only [Numeral.ofInt, Numeral.toInt?]
      grind
    simp [integer, Json.ofInt, hint, hn.1, hn.2]
  plain _ _ := .number nofun
  within {b j x} _ hx := by
    match j, hx with
    | .number n, hx =>
      have hbounds := (Option.filter_eq_some_iff.mp
        (show n.toInt?.filter (fun value => low ≤ value && value ≤ high) = some x from hx)).2
      exact ⟨x, by simpa using hbounds, rfl, Nat.zero_le _⟩

/-- Machine integers without a sign, by their values. -/
theorem unsigned_codec (size : ℕ) {ofNat : ℕ → α} {toNat : α → ℕ} (hlt : ∀ x, toNat x < size)
    (hleft : ∀ x, ofNat (toNat x) = x) (hright : ∀ n < size, toNat (ofNat n) = n) :
    Codec limit slack anything id ((integer 0 (size - 1)).map fun n => ofNat n.toNat)
      fun x => Json.ofNat (toNat x) := by
  refine ((integer_codec 0 (size - 1)).map fun n => ofNat n.toNat).of (fun x => (toNat x : ℤ))
    (fun x _ => ⟨⟨by omega, by have := hlt x; omega⟩, by simp [hleft]⟩) fun n hn => ⟨trivial, ?_⟩
  have htoNat := hright n.toNat (by omega)
  simp only [Function.comp_apply, id, htoNat, Json.ofNat, Json.ofInt, Numeral.ofNat, Numeral.ofInt]
  grind

theorem int64_codec : Codec limit slack anything id int64 fun n => ofInt n.toInt :=
  ((integer_codec _ _).map Int64.ofInt).of Int64.toInt
    (fun n _ => ⟨⟨n.minValue_le_toInt, n.toInt_le⟩, by simp⟩)
    (fun n hn => ⟨trivial, by simp [Int64.toInt_ofInt_of_le hn.1 (Int.lt_add_one_of_le hn.2)]⟩)

theorem int32_codec : Codec limit slack anything id int32 fun n => ofInt n.toInt :=
  ((integer_codec _ _).map Int32.ofInt).of Int32.toInt
    (fun n _ => ⟨⟨n.minValue_le_toInt, n.toInt_le⟩, by simp⟩)
    (fun n hn => ⟨trivial, by simp [Int32.toInt_ofInt_of_le hn.1 (Int.lt_add_one_of_le hn.2)]⟩)

theorem uint64_codec : Codec limit slack anything id uint64 Program.ofIndex :=
  unsigned_codec _ UInt64.toNat_lt (fun _ => UInt64.ofNat_toNat) fun _ => UInt64.toNat_ofNat_of_lt'

theorem uint32_codec : Codec limit slack anything id uint32 fun n => ofNat n.toNat :=
  unsigned_codec _ UInt32.toNat_lt (fun _ => UInt32.ofNat_toNat) fun _ => UInt32.toNat_ofNat_of_lt'

theorem uint8_codec : Codec limit slack anything id uint8 fun n => ofNat n.toNat :=
  unsigned_codec UInt8.size UInt8.toNat_lt (fun _ => UInt8.ofNat_toNat)
    fun _ => UInt8.toNat_ofNat_of_lt'

section

variable {good : α → Prop} {decode : Decoder α} {encode : α → Json}

theorem exists_of_mapM {f : β → Option α} {items : List β} {xs : List α}
    (h : items.mapM f = some xs) : ∀ x ∈ xs, ∃ item ∈ items, f item = some x := by
  induction items generalizing xs with
  | nil =>
      obtain rfl : [] = xs := Option.some.inj h
      simp
  | cons item items ih =>
      simp only [List.mapM_cons, Option.bind_eq_bind, Option.bind_eq_some_iff, Option.pure_def,
        Option.some.injEq] at h
      obtain ⟨y, hy, ys, hys, rfl⟩ := h
      rw [List.forall_mem_cons]
      refine ⟨⟨item, List.mem_cons_self, hy⟩, fun x hx => ?_⟩
      obtain ⟨item, hitem, hx⟩ := ih hys x hx
      exact ⟨item, List.mem_cons_of_mem _ hitem, hx⟩

theorem mapM_map_eq_some {f : β → Option α} {g : α → β} {xs : List α}
    (h : ∀ x ∈ xs, f (g x) = some x) : (xs.map g).mapM f = some xs := by
  induction xs with
  | nil => rfl
  | cons x xs ih =>
      rw [List.forall_mem_cons] at h
      simp [h.1, ih h.2]

theorem Codec.list (h : Codec (limit - 1) (slack - 1) good id decode encode) :
    Codec limit slack (fun xs => ∀ x ∈ xs, good x) id (Decoder.list decode)
      (Program.ofList encode) where
  reads {xs b} hgood hdepth hb := by
    cases b with
    | zero => simp [Program.ofList, depth] at hdepth
    | succ b =>
        simp only [Program.ofList, depth_array_le, List.forall_mem_map] at hdepth
        exact mapM_map_eq_some fun x hx => h.reads (hgood x hx) (hdepth x hx) (by omega)
  plain {xs} hgood hdepth := by
    refine .array fun item hitem => ?_
    have hlt := depth_lt_array item hitem
    obtain ⟨x, hx, rfl⟩ := List.mem_map.mp hitem
    exact h.plain (hgood x hx) (Nat.lt_of_lt_of_le hlt (Nat.le_sub_one_of_lt hdepth))
  within {b j xs} hb hxs := by
    match b, j, hxs with
    | b + 1, .array items, hxs =>
      have hitems : ∀ x ∈ xs, good x ∧ (encode x).depth ≤ b := fun x hx => by
        obtain ⟨item, -, hitem⟩ := exists_of_mapM hxs x hx
        obtain ⟨_, hgood, rfl, hdepth⟩ := h.within (by omega) hitem
        exact ⟨hgood, hdepth⟩
      exact ⟨xs, fun x hx => (hitems x hx).1, rfl, depth_array_le.mpr <|
        List.forall_mem_map.mpr fun x hx => (hitems x hx).2⟩

theorem Codec.nullable (h : Codec limit slack good id decode encode)
    (hnull : ∀ x, encode x ≠ .null) :
    Codec limit slack (fun o => ∀ x ∈ o, good x) id (Decoder.nullable decode)
      (Program.ofOption encode) where
  reads {o b} hgood hdepth hb := by
    cases o with
    | none => rfl
    | some x =>
        rw [Program.ofOption] at hdepth ⊢
        rw [Decoder.nullable, h.reads (hgood x rfl) hdepth hb]
        · rfl
        · exact hnull x
  plain {o} hgood hdepth := by
    cases o with
    | none => exact .null
    | some x => exact h.plain (hgood x rfl) hdepth
  within {b j o} hb ho := by
    unfold Decoder.nullable at ho
    split at ho
    · obtain rfl : none = o := Option.some.inj ho
      exact ⟨none, by simp, rfl, Nat.zero_le _⟩
    · obtain ⟨x, hx, rfl⟩ := Option.map_eq_some_iff.mp ho
      obtain ⟨_, hgood, rfl, hdepth⟩ := h.within hb hx
      exact ⟨some _, by simpa using hgood, rfl, hdepth⟩

theorem named_codec {form : α → String} {all : List α} (hall : ∀ x, x ∈ all)
    (hform : (all.map form).Nodup) :
    Codec limit slack anything id (Program.named form all) fun x => ofString (form x) where
  reads {x b} _ _ _ := by
    obtain ⟨y, hy⟩ : ∃ y, all.find? (form · = form x) = some y :=
      Option.isSome_iff_exists.mp (List.find?_isSome.mpr ⟨x, hall x, by simp⟩)
    have hsame := List.find?_some hy
    obtain rfl := List.inj_on_of_nodup_map hform (hall y) (hall x) (of_decide_eq_true hsame)
    simp [Program.named, ofString, choice, hy]
  plain _ _ := .string _
  within {b j x} _ _ := ⟨x, trivial, rfl, Nat.zero_le _⟩

end

/-! A record is read from an object by the names of its fields or from a list by their places. Both
come down to a list of slots in the order of the fields, some of which may be empty. -/

/-- The same for one field of a record, which may be absent. -/
structure Field (limit slack : ℕ) (good : α → Prop) (read : ℕ → Option Json → Option α)
    (encode : α → Json) : Prop where
  reads : ∀ {x b}, good x → (encode x).depth ≤ b → b < limit → read b (some (encode x)) = some x
  plain : ∀ {x}, good x → (encode x).depth < limit → (encode x).Plain
  within : ∀ {b slot x}, slack ≤ b → read b slot = some x → good x ∧ (encode x).depth ≤ b

/-- The same for the fields of a record one after the other. -/
structure Fields (limit slack : ℕ) (good : α → Prop) (read : ℕ → List (Option Json) → Option α)
    (encode : α → List Json) : Prop where
  reads : ∀ {x b}, good x → (∀ j ∈ encode x, j.depth ≤ b) → b < limit →
    read b ((encode x).map some) = some x
  plain : ∀ {x}, good x → (∀ j ∈ encode x, j.depth < limit) → ∀ j ∈ encode x, j.Plain
  within : ∀ {b slots x}, slack ≤ b → read b slots = some x →
    good x ∧ ∀ j ∈ encode x, j.depth ≤ b

/-- Reads no field at all. -/
def noFields : ℕ → List (Option Json) → Option Unit
  | _, [] => some ()
  | _, _ => none

/-- Reads one field more. -/
def withField (first : ℕ → Option Json → Option α) (rest : ℕ → List (Option Json) → Option β) :
    ℕ → List (Option Json) → Option (α × β)
  | budget, slot :: slots => do return (← first budget slot, ← rest budget slots)
  | _, [] => none

@[simp] theorem map_noFields (f : Unit → α) (b : ℕ) : (noFields b []).map f = some (f ()) := rfl

@[simp] theorem noFields_cons (b : ℕ) (slot : Option Json) (slots : List (Option Json)) :
    noFields b (slot :: slots) = none := rfl

@[simp] theorem withField_nil (first : ℕ → Option Json → Option α)
    (rest : ℕ → List (Option Json) → Option β) (b : ℕ) : withField first rest b [] = none := rfl

@[simp] theorem map_withField (first : ℕ → Option Json → Option α)
    (rest : ℕ → List (Option Json) → Option β) (f : α × β → π) (b : ℕ) (slot : Option Json)
    (slots : List (Option Json)) : (withField first rest b (slot :: slots)).map f =
      (first b slot).bind fun x => (rest b slots).map fun y => f (x, y) := by
  simp only [withField, Option.bind_eq_bind, Option.map_bind, Option.pure_def]
  refine Option.bind_congr fun x _ => ?_
  cases rest b slots <;> rfl

section

variable {good : α → Prop} {decode : Decoder α} {encode : α → Json}

theorem Field.required (h : Codec limit slack good id decode encode) :
    Field limit slack good (Decoder.required decode) encode where
  reads := h.reads
  plain := h.plain
  within {b slot x} hb hx := by
    obtain ⟨j, rfl, hx⟩ := Option.bind_eq_some_iff.mp hx
    obtain ⟨_, hgood, rfl, hdepth⟩ := h.within hb hx
    exact ⟨hgood, hdepth⟩

theorem Field.optional (h : Codec limit slack good id decode encode) (fallback : α)
    (hgood : good fallback) (hdepth : (encode fallback).depth ≤ slack) :
    Field limit slack good (Decoder.optional decode fallback) encode where
  reads := h.reads
  plain := h.plain
  within {b slot x} hb hx := by
    cases slot with
    | none =>
        obtain rfl : fallback = x := Option.some.inj hx
        exact ⟨hgood, hdepth.trans hb⟩
    | some j =>
        obtain ⟨_, hgood, rfl, hdepth⟩ := h.within hb hx
        exact ⟨hgood, hdepth⟩

end

theorem Fields.nil : Fields limit slack anything noFields fun _ => [] where
  reads _ _ _ := rfl
  plain _ _ := by simp
  within _ _ := ⟨trivial, by simp⟩

theorem Fields.cons {good : α → Prop} {first : ℕ → Option Json → Option α} {encode : α → Json}
    {good' : β → Prop} {rest : ℕ → List (Option Json) → Option β} {encode' : β → List Json}
    (h : Field limit slack good first encode) (h' : Fields limit slack good' rest encode') :
    Fields limit slack (fun p : α × β => good p.1 ∧ good' p.2) (withField first rest)
      fun p : α × β => encode p.1 :: encode' p.2 where
  reads {p b} hgood hdepth hb := by
    rw [List.forall_mem_cons] at hdepth
    simp [withField, h.reads hgood.1 hdepth.1 hb, h'.reads hgood.2 hdepth.2 hb]
  plain {p} hgood hdepth := by
    rw [List.forall_mem_cons] at hdepth ⊢
    exact ⟨h.plain hgood.1 hdepth.1, h'.plain hgood.2 hdepth.2⟩
  within {b slots y} hb hy := by
    match slots, hy with
    | slot :: slots, hy =>
      simp only [withField, Option.bind_eq_bind, Option.bind_eq_some_iff, Option.pure_def,
        Option.some.injEq] at hy
      obtain ⟨x, hx, q, hq, rfl⟩ := hy
      obtain ⟨hgood, hdepth⟩ := h.within hb hx
      obtain ⟨hgood', hdepth'⟩ := h'.within hb hq
      exact ⟨⟨hgood, hgood'⟩, List.forall_mem_cons.mpr ⟨hdepth, hdepth'⟩⟩

theorem namedMembers_keyed (members : List (String × Json)) :
    namedMembers (keyed members) = some members := by
  induction members with
  | nil => rfl
  | cons m members ih =>
      unfold namedMembers at ih ⊢
      simp [ih]

section

variable {names : List String} {values : List Json} (hnames : names.Nodup)
  (hlength : values.length = names.length)

include hnames hlength

theorem givenOnce_zip : givenOnce names (names.zip values) = true := by
  have hkeys : (names.zip values).map Prod.fst = names := List.map_fst_zip hlength.ge
  rw [givenOnce, List.all_eq_true]
  rintro name -
  have hcount := List.nodup_iff_count_le_one.mp hnames name
  rw [← hkeys, List.count_eq_countP, List.countP_map, List.countP_eq_length_filter] at hcount
  simp only [Function.comp_def, beq_eq_decide] at hcount
  exact decide_eq_true hcount

theorem map_lookup_zip :
    (names.map fun name => List.lookup name (names.zip values)) = values.map some := by
  induction names generalizing values with
  | nil =>
      obtain rfl := List.length_eq_zero_iff.mp hlength
      rfl
  | cons name names ih =>
      obtain ⟨value, values, rfl⟩ := List.exists_cons_of_length_eq_add_one hlength
      obtain ⟨hname, hnames⟩ := List.nodup_cons.mp hnames
      have hrest := ih hnames (by simpa using hlength)
      simp only [List.zip_cons_cons, List.map_cons, List.lookup_cons_self, ← hrest]
      congr 1
      refine List.map_congr_left fun other hother => ?_
      have hne : (other == name) = false := by
        rw [beq_eq_false_iff_ne]
        rintro rfl
        exact hname hother
      simp [List.lookup_cons, hne]

end

/-- A record is read back if its fields are. -/
theorem Codec.record {good : π → Prop} {read : ℕ → List (Option Json) → Option π}
    {encode : π → List Json} {names : List String} {read' : ℕ → List (Option Json) → Option α}
    (build : π → α) (h : Fields (limit - 1) (slack - 1) good read encode) (hnames : names.Nodup)
    (hlength : ∀ p, (encode p).length = names.length)
    (hread : ∀ b slots, read' b slots = (read b slots).map build) :
    Codec limit slack good build (Decoder.record names read')
      fun p => Json.record (names.zip (encode p)) := by
  have hvalues : ∀ p, (names.zip (encode p)).map Prod.snd = encode p := fun p =>
    List.map_snd_zip (hlength p).le
  have hmembers : ∀ p (P : Json → Prop),
      (∀ m ∈ names.zip (encode p), P m.2) ↔ ∀ j ∈ encode p, P j := fun p P => by
    rw [← List.forall_mem_map (f := Prod.snd), hvalues]
  refine ⟨fun {p b} hgood hdepth hb => ?_, fun {p} hgood hdepth => ?_, fun {b j x} hb hx => ?_⟩
  · cases b with
    | zero => simp [Json.record, depth] at hdepth
    | succ b =>
        rw [depth_record_le, hmembers p fun j => j.depth ≤ b] at hdepth
        have hkeyed := namedMembers_keyed (names.zip (encode p))
        simp only [Decoder.record, Json.record]
        rw [hkeyed]
        simp [givenOnce_zip hnames (hlength p), map_lookup_zip hnames (hlength p), hread,
          h.reads hgood hdepth (by omega)]
  · refine .record ((hmembers p Json.Plain).mpr (h.plain hgood ?_))
    refine (hmembers p fun j => j.depth < limit - 1).mp fun m hm => ?_
    have := depth_lt_record m hm
    omega
  · obtain ⟨b, slots, rfl, hslots⟩ : ∃ b' slots, b = b' + 1 ∧ read' b' slots = some x := by
      match b, j, hx with
      | b + 1, .object members, hx =>
        obtain ⟨named, -, hx⟩ := Option.bind_eq_some_iff.mp hx
        obtain ⟨-, hx⟩ := Option.ite_none_right_eq_some.mp hx
        exact ⟨b, _, rfl, hx⟩
      | b + 1, .array items, hx =>
        obtain ⟨-, hx⟩ := Option.ite_none_right_eq_some.mp hx
        exact ⟨b, _, rfl, hx⟩
    rw [hread] at hslots
    obtain ⟨p, hp, rfl⟩ := Option.map_eq_some_iff.mp hslots
    obtain ⟨hgood, hdepth⟩ := h.within (by omega) hp
    exact ⟨p, hgood, rfl, depth_record_le.mpr ((hmembers p fun j => j.depth ≤ b).mpr hdepth)⟩

/-- A structure that is written as a record of its parts is read back if they are. -/
theorem Codec.structured {good : π → Prop} {read : ℕ → List (Option Json) → Option π}
    {encode : π → List Json} {good' : α → Prop} {encode' : α → Json} {names : List String}
    {read' : ℕ → List (Option Json) → Option α} (parts : α → π) (build : π → α)
    (h : Fields (limit - 1) (slack - 1) good read encode) (hnames : names.Nodup)
    (hlength : ∀ p, (encode p).length = names.length)
    (hread : ∀ b slots, read' b slots = (read b slots).map build)
    (hparts : ∀ x, good' x → good (parts x) ∧ build (parts x) = x)
    (hbuild : ∀ p, good p →
      good' (build p) ∧ encode' (build p) = Json.record (names.zip (encode p))) :
    Codec limit slack good' id (Decoder.record names read') encode' :=
  (Codec.record build h hnames hlength hread).of parts hparts hbuild

/-- A record that is never read without budget for its fields needs no more than one for each. -/
theorem Codec.tighten {good : π → Prop} {make : π → α} {names : List String}
    {read : ℕ → List (Option Json) → Option α} {encode : π → Json}
    (h : Codec limit 2 good make (Decoder.record names read) encode)
    (hnone : ∀ slots, read 0 slots = none) :
    Codec limit slack good make (Decoder.record names read) encode where
  reads := h.reads
  plain := h.plain
  within {b j x} _ hx := by
    match b, j, hx with
    | b + 2, j, hx => exact h.within (Nat.le_add_left 2 b) hx
    | 1, .object members, hx => simp [Decoder.record, hnone] at hx
    | 1, .array items, hx => simp [Decoder.record, hnone] at hx

section

variable {good : α → Prop} {encode : α → Json} {cases : String → Option (Case α)}

/-- The value is written as one of the cases: as its name alone, or with data that is read back. -/
inductive Chosen (limit slack : ℕ) (cases : String → Option (Case α)) (encode : α → Json) (x : α) :
    Prop
  | bare (name : String) (hcase : cases name = some (.bare x)) (hform : encode x = ofString name)
  | holding {ρ : Type} {good' : ρ → Prop} {part : ρ → α} {decode : Decoder α} {data : ρ → Json}
      (name : String) (hcase : cases name = some (.holding decode))
      (h : Codec limit slack good' part decode data) (p : ρ) (hgood : good' p) (hpart : part p = x)
      (hform : encode x = Program.holding name (data p))

/-- What the case gives is good and written with the name of the case. -/
inductive Sound (limit slack : ℕ) (good : α → Prop) (encode : α → Json) (name : String) :
    Case α → Prop
  | bare (x : α) (hgood : good x) (hform : encode x = ofString name) :
      Sound limit slack good encode name (.bare x)
  | holding {ρ : Type} {good' : ρ → Prop} {part : ρ → α} {decode : Decoder α} {data : ρ → Json}
      (h : Codec limit slack good' part decode data)
      (hpart : ∀ p, good' p → good (part p) ∧ encode (part p) = Program.holding name (data p)) :
      Sound limit slack good encode name (.holding decode)

/-- The case holds the data of the values that are good parts put together. -/
structure Holds (limit slack : ℕ) (good : α → Prop) (cases : String → Option (Case α))
    (encode : α → Json) (name : String) (good' : π → Prop) (part : π → α) : Prop where
  chosen : ∀ p, good' p → Chosen limit slack cases encode (part p)
  sound : ∀ c, cases name = some c → Sound limit slack good encode name c

theorem Codec.holds (name : String) (part : π → α) {good' : π → Prop} {decode : Decoder α}
    {data : π → Json} (hcase : cases name = some (.holding decode))
    (h : Codec limit slack good' part decode data)
    (hpart : ∀ p, good' p → good (part p) ∧ encode (part p) = Program.holding name (data p)) :
    Holds limit slack good cases encode name good' part where
  chosen p hp := .holding name hcase h p hp rfl (hpart p hp).2
  sound c hc := by
    obtain rfl : Case.holding decode = c := Option.some.inj (hcase.symm.trans hc)
    exact .holding h hpart

/-- A choice is read back if each value is written as a case and each case gives good values, where
`Codec.holds` gives both for a case that holds data. -/
theorem Codec.choice
    (h : (∀ {π : Type} {good' : π → Prop} {decode : Decoder α} {data : π → Json} (name : String)
        (part : π → α), cases name = some (.holding decode) →
        Codec (limit - 1) (slack - 1) good' part decode data →
        (∀ p, good' p → good (part p) ∧ encode (part p) = Program.holding name (data p)) →
        Holds (limit - 1) (slack - 1) good cases encode name good' part) →
      (∀ x, good x → Chosen (limit - 1) (slack - 1) cases encode x) ∧
        ∀ name c, cases name = some c → Sound (limit - 1) (slack - 1) good encode name c) :
    Codec limit slack good id (Decoder.choice cases) encode := by
  obtain ⟨hchosen, hsound⟩ := h fun name part => Codec.holds name part
  refine ⟨fun {x b} hgood hdepth hb => ?_, fun {x} hgood hdepth => ?_, fun {b j x} hb hx => ?_⟩
  · rcases hchosen x hgood with ⟨name, hcase, hform⟩ | ⟨name, hcase, h, p, hp, hpart, hform⟩
    · simp [hform, ofString, Decoder.choice, hcase]
    · rw [hform] at hdepth ⊢
      cases b with
      | zero => simp [Program.holding, Json.record, depth] at hdepth
      | succ b =>
          have hread := h.reads hp (depth_holding_le.mp hdepth) (by omega)
          simp [Program.holding, Json.record, Decoder.choice, hcase, hread, hpart]
  · rcases hchosen x hgood with ⟨name, hcase, hform⟩ | ⟨name, hcase, h, p, hp, hpart, hform⟩
    · rw [hform]
      exact .string _
    · rw [hform] at hdepth ⊢
      refine .record fun m hm => ?_
      have hlt := depth_lt_record m hm
      obtain rfl := List.mem_singleton.mp hm
      exact h.plain hp (Nat.lt_of_lt_of_le hlt (Nat.le_sub_one_of_lt hdepth))
  · have hbare : ∀ {name value}, cases name = some (.bare value) →
        ∃ p, good p ∧ id p = value ∧ (encode p).depth ≤ b := fun hcase => by
      cases hsound _ _ hcase with
      | bare _ hgood hform => exact ⟨_, hgood, rfl, by rw [hform]; exact Nat.zero_le _⟩
    unfold Decoder.choice at hx
    split at hx
    · split at hx
      · rename_i hcase
        obtain rfl := Option.some.inj hx
        exact hbare hcase
      · cases hx
    · split at hx
      · rename_i hcase
        obtain rfl := Option.some.inj hx
        exact hbare hcase
      · rename_i hcase
        cases hsound _ _ hcase with
        | holding h hpart =>
            obtain ⟨p, hp, rfl, hdepth⟩ := h.within (by omega) hx
            obtain ⟨hgood, hform⟩ := hpart p hp
            exact ⟨_, hgood, rfl, by rw [hform]; exact depth_holding_le.mpr hdepth⟩
      · cases hx
    · cases hx

end

end Decoder

end Emitter.Json
