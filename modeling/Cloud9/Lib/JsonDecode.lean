import Cloud9.Lib.JsonReader

/-!
# Types from JSON

Decoding a type from a value that was read. A struct is an object with its fields in any order,
where unknown members are ignored and no field occurs twice, or an array with the fields in their
order (`Value.struct`). A variant of an enum is a string, or an object with one member, named after
the variant (`Value.enum`).

`Decodes bs d a` says that the bytes are read as a value from which `d` decodes `a`. It follows the
structure of the decoder: there is one lemma for each way to build one.

A `Serializer` is all a program that stores values as bytes can ask of its format: what was encoded
decodes to the same value. Encoding may fail. `Json.serializer` makes one of a writer and a decoder.
-/

structure Serializer (α : Type*) where
  encode : α → Option (List UInt8)
  decode : List UInt8 → Option α
  decode_of_encode : ∀ {a : α} {bytes : List UInt8}, encode a = some bytes → decode bytes = some a

namespace Json

/-! ## Decoders -/

namespace Value

variable {α β : Type}

def nat (bound : ℕ) : Value → Option ℕ
  | .int false n => if n < bound then some n else none
  | _ => none

def u64 (v : Value) : Option ℕ := v.nat (2 ^ 64)

def uint64 (v : Value) : Option UInt64 := v.u64.map UInt64.ofNat

def byte (v : Value) : Option UInt8 := (v.nat 256).map UInt8.ofNat

def toBool : Value → Option Bool
  | .bool b => some b
  | _ => none

def text : Value → Option String
  | .string s => some s
  | _ => none

def list (d : Value → Option α) : Value → Option (List α)
  | .array items => items.mapM d
  | _ => none

def option (d : Value → Option α) : Value → Option (Option α)
  | .null => some none
  | v => (d v).map some

/-- The member of a name. It must not occur twice; an optional one may be missing. -/
def member (optional : List String) (members : List (String × Value)) (name : String) :
    Option Value :=
  match members.filter fun m => m.1 == name with
  | [] => if name ∈ optional then some .null else none
  | [m] => some m.2
  | _ => none

end Value

/-- The fields of a struct, with a decoder for each. -/
inductive Fields : Type → Type 1 where
  | one {α : Type} (name : String) (d : Value → Option α) : Fields α
  | cons {α β : Type} (name : String) (d : Value → Option α) (rest : Fields β) : Fields (α × β)

def Fields.names {α : Type} : Fields α → List String
  | .one name _ => [name]
  | .cons name _ rest => name :: rest.names

def Fields.decode {α : Type} : Fields α → List Value → Option α
  | .one _ d, [v] => d v
  | .cons _ d rest, v :: vs => (d v).bind fun a => (rest.decode vs).map fun b => (a, b)
  | _, _ => none

namespace Value

variable {α β : Type}

def structWith (optional : List String) (fields : Fields α) : Value → Option α
  | .object members => (fields.names.mapM (member optional members)).bind fields.decode
  | .array items => fields.decode items
  | _ => none

def struct (fields : Fields α) (v : Value) : Option α := v.structWith [] fields

/-- The name of a variant, and its body if it has one. -/
def variant : Value → Option (String × Option Value)
  | .string tag => some (tag, none)
  | .object [(tag, body)] => some (tag, some body)
  | _ => none

def enum (variants : List (String × (Option Value → Option α))) (v : Value) : Option α :=
  v.variant.bind fun tagged => (variants.lookup tagged.1).bind fun d => d tagged.2

def unit (a : α) : Option Value → Option α
  | none => some a
  | some .null => some a
  | some _ => none

def newtype (d : Value → Option α) (mk : α → β) : Option Value → Option β
  | none => none
  | some v => (d v).map mk

end Value

/-! ## What is written is decoded -/

section

variable {α β : Type} {bs : List UInt8} {d : Value → Option α} {a : α}

def Decodes (bs : List UInt8) (d : Value → Option α) (a : α) : Prop :=
  ∃ v, Reads bs v ∧ d v = some a

theorem Decodes.read (h : Decodes bs d a) : (read bs).bind d = some a := by
  obtain ⟨v, hv, hd⟩ := h
  rw [hv.read, Option.bind_some, hd]

theorem Decodes.map {f : α → β} {b : β} (h : Decodes bs d a) (hb : f a = b) :
    Decodes bs (fun v => (d v).map f) b := by
  obtain ⟨v, hv, hd⟩ := h
  exact ⟨v, hv, by simp only [hd, Option.map_some, hb]⟩

theorem decodes_nat {bound n : ℕ} (h : n < bound) : Decodes (decimal n) (Value.nat bound) n :=
  ⟨_, reads_decimal n, if_pos h⟩

theorem decodes_u64 {n : ℕ} (h : n < 2 ^ 64) : Decodes (decimal n) Value.u64 n := decodes_nat h

theorem decodes_uint64 (n : UInt64) : Decodes (decimal n.toNat) Value.uint64 n :=
  (decodes_u64 n.toNat_lt).map UInt64.ofNat_toNat

theorem decodes_byte (b : UInt8) : Decodes (decimal b.toNat) Value.byte b :=
  (decodes_nat b.toNat_lt).map UInt8.ofNat_toNat

theorem decodes_bool (b : Bool) : Decodes (bool b) Value.toBool b := ⟨_, reads_bool b, rfl⟩

theorem decodes_text (s : String) : Decodes (string s) Value.text s := ⟨_, reads_string s, rfl⟩

theorem mapM_eq_some {γ δ : Type*} {f : γ → Option δ} {xs : List γ} {ys : List δ}
    (h : List.Forall₂ (fun x y => f x = some y) xs ys) : xs.mapM f = some ys := by
  induction h with
  | nil => rfl
  | cons hx _ ih => simp [List.mapM_cons, hx, ih]

theorem decodes_list {write : α → List UInt8} {as : List α} (h : ∀ a ∈ as, Decodes (write a) d a) :
    Decodes (array (as.map write)) (Value.list d) as := by
  have hvalues : ∃ vs, List.Forall₂ Reads (as.map write) vs ∧
      List.Forall₂ (fun v a => d v = some a) vs as := by
    induction as with
    | nil => exact ⟨[], .nil, .nil⟩
    | cons a as ih =>
      rw [List.forall_mem_cons] at h
      obtain ⟨v, hv, hd⟩ := h.1
      obtain ⟨vs, hvs, hds⟩ := ih h.2
      exact ⟨v :: vs, .cons hv hvs, .cons hd hds⟩
  obtain ⟨vs, hvs, hds⟩ := hvalues
  exact ⟨.array vs, reads_array hvs, mapM_eq_some hds⟩

theorem decodes_bytes (bs : List UInt8) : Decodes (bytes bs) (Value.list Value.byte) bs :=
  decodes_list fun b _ => decodes_byte b

theorem decodes_option {write : α → List UInt8} {o : Option α} (h : ∀ a ∈ o, Decodes (write a) d a)
    (hnull : d .null = none) : Decodes (o.elim (utf8 "null") write) (Value.option d) o := by
  cases o with
  | none => exact ⟨.null, reads_null, rfl⟩
  | some a =>
    obtain ⟨v, hv, hd⟩ := h a rfl
    refine ⟨v, hv, ?_⟩
    cases v with
    | null =>
      rw [hnull] at hd
      cases hd
    | _ => simp only [Value.option, hd, Option.map_some]

/-! ### Structs -/

inductive Fields.Decodes : {α : Type} → Fields α → List (List UInt8) → α → Prop
  | one {α : Type} {d : Value → Option α} {t : List UInt8} {a : α} (name : String)
      (h : Json.Decodes t d a) : Fields.Decodes (.one name d) [t] a
  | cons {α β : Type} {d : Value → Option α} {rest : Fields β} {t : List UInt8}
      {ts : List (List UInt8)} {a : α} {b : β} (name : String) (h : Json.Decodes t d a)
      (hrest : rest.Decodes ts b) : Fields.Decodes (.cons name d rest) (t :: ts) (a, b)

theorem Fields.Decodes.exists_values {F : Fields α} {ts : List (List UInt8)} (h : F.Decodes ts a) :
    ∃ vs, List.Forall₂ Reads ts vs ∧ F.decode vs = some a ∧ F.names.length = vs.length := by
  induction h with
  | one name h =>
    obtain ⟨v, hv, hd⟩ := h
    exact ⟨[v], .cons hv .nil, hd, rfl⟩
  | cons name h _ ih =>
    obtain ⟨v, hv, hd⟩ := h
    obtain ⟨vs, hvs, hds, hlen⟩ := ih
    refine ⟨v :: vs, .cons hv hvs, ?_, congrArg Nat.succ hlen⟩
    rw [Fields.decode, hd, Option.bind_some, hds]
    rfl

theorem filter_zip_eq {γ : Type*} {names : List String} (hnodup : names.Nodup) {vs : List γ}
    {name : String} {v : γ} (h : (name, v) ∈ names.zip vs) :
    ((names.zip vs).filter fun m => m.1 == name) = [(name, v)] := by
  induction names generalizing vs with
  | nil => cases h
  | cons n names ih =>
    obtain ⟨hn, hnodup⟩ := List.nodup_cons.1 hnodup
    cases vs with
    | nil => cases h
    | cons w vs =>
      rw [List.zip_cons_cons] at h ⊢
      rcases List.mem_cons.1 h with heq | h
      · obtain ⟨rfl, rfl⟩ := Prod.mk.inj heq
        have hrest : ((names.zip vs).filter fun m => m.1 == name) = [] := by
          refine List.filter_eq_nil_iff.2 fun m hm heq => hn ?_
          rw [← eq_of_beq heq]
          exact (List.of_mem_zip hm).1
        simp only [List.filter_cons, beq_self_eq_true, if_true, hrest]
      · have hne : (n == name) = false := beq_eq_false_iff_ne.2 fun heq => hn (by
          rw [heq]
          exact (List.of_mem_zip h).1)
        simp only [List.filter_cons, hne, Bool.false_eq_true, if_false, ih hnodup h]

theorem member_zip {names : List String} (hnodup : names.Nodup) {vs : List Value} {name : String}
    {v : Value} (h : (name, v) ∈ names.zip vs) (optional : List String) :
    Value.member optional (names.zip vs) name = some v := by
  rw [Value.member, filter_zip_eq hnodup h]

theorem forall₂_zip {ts : List (List UInt8)} {vs : List Value} (h : List.Forall₂ Reads ts vs) :
    ∀ names : List String, List.Forall₂ (fun f m => f.1 = m.1 ∧ Reads f.2 m.2) (names.zip ts)
      (names.zip vs) := by
  induction h with
  | nil =>
    intro names
    rw [List.zip_nil_right, List.zip_nil_right]
    exact .nil
  | cons hv _ ih =>
    intro names
    cases names with
    | nil => exact .nil
    | cons name names => exact .cons ⟨rfl, hv⟩ (ih names)

/-- An object with the fields in their order. -/
theorem decodes_structWith {optional : List String} {F : Fields α} {ts : List (List UInt8)}
    {fields : List (String × List UInt8)} (h : F.Decodes ts a) (hnodup : F.names.Nodup)
    (hfields : F.names.zip ts = fields) :
    Decodes (object fields) (Value.structWith optional F) a := by
  obtain ⟨vs, hvs, hds, hlen⟩ := h.exists_values
  have hmembers : F.names.mapM (Value.member optional (F.names.zip vs)) = some vs :=
    mapM_eq_some (List.forall₂_iff_zip.2 ⟨hlen, fun h => member_zip hnodup h optional⟩)
  subst hfields
  refine ⟨.object (F.names.zip vs), reads_object (forall₂_zip hvs _), ?_⟩
  rw [Value.structWith, hmembers, Option.bind_some, hds]

theorem decodes_struct {F : Fields α} {ts : List (List UInt8)}
    {fields : List (String × List UInt8)} (h : F.Decodes ts a) (hnodup : F.names.Nodup)
    (hfields : F.names.zip ts = fields) : Decodes (object fields) (Value.struct F) a :=
  decodes_structWith h hnodup hfields

theorem decodes_record {F : Fields α} {ts : List (List UInt8)} {fields : List (String × List UInt8)}
    {mk : α → β} {b : β} (h : F.Decodes ts a) (hnodup : F.names.Nodup)
    (hfields : F.names.zip ts = fields) (hb : mk a = b) :
    Decodes (object fields) (fun v => (v.struct F).map mk) b :=
  (decodes_struct h hnodup hfields).map hb

/-! ### Enums -/

theorem decodes_unit {variants : List (String × (Option Value → Option α))} {tag : String}
    (h : variants.lookup tag = some (Value.unit a)) :
    Decodes (string tag) (Value.enum variants) a :=
  ⟨_, reads_string tag, by simp only [Value.enum, Value.variant, Option.bind_some, h]; rfl⟩

theorem decodes_newtype {variants : List (String × (Option Value → Option β))} {tag : String}
    {mk : α → β} {b : β} (h : variants.lookup tag = some (Value.newtype d mk)) (hd : Decodes bs d a)
    (hb : mk a = b) : Decodes (object [(tag, bs)]) (Value.enum variants) b := by
  obtain ⟨v, hv, hd⟩ := hd
  refine ⟨.object [(tag, v)], reads_object (.cons ⟨rfl, hv⟩ .nil), ?_⟩
  simp only [Value.enum, Value.variant, Option.bind_some, h, Value.newtype, hd, Option.map_some, hb]

end

/-! ## Formats -/

/-- The format of a type whose values are written by `toJson`, if they are in the range of what can
be read back. -/
def serializer {α : Type} (toJson : α → List UInt8) (ofJson : Value → Option α) (inRange : α → Prop)
    [DecidablePred inRange] (h : ∀ a, inRange a → Decodes (toJson a) ofJson a) : Serializer α where
  encode a := if inRange a then some (toJson a) else none
  decode bytes := (read bytes).bind ofJson
  decode_of_encode {a _} hencode := by
    split_ifs at hencode with hrange
    cases hencode
    exact (h a hrange).read

end Json
