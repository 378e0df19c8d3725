import Worldbook.Proofs.Records

/-!
# Records reread field by field

A line of a language becomes the fields of its record, in an order of the language's own. The
result is `Rewritten`: every field is reread, and only of two equal bounds the lower one stands for
both. Such a record recovers the first, and a tame one is written with the same words again.
-/

namespace Worldbook

open Written

/-! ## The fields with given keys -/

/-- The fields of a record with the given keys, reread, in the order of the keys. -/
def Record.reread (o : Record) (keys : List String) : Record :=
  keys.filterMap fun key => (o.get? key).map fun v => (key, v.reread)

namespace Record

variable {o : Record} {key : String}

theorem reread_nil : o.reread [] = [] := rfl

theorem reread_of_some {v : Json} (h : o.get? key = some v) (keys : List String) :
    o.reread (key :: keys) = (key, v.reread) :: o.reread keys := by
  rw [reread, List.filterMap_cons, h]; rfl

theorem reread_of_none (h : o.get? key = none) (keys : List String) :
    o.reread (key :: keys) = o.reread keys := by
  rw [reread, List.filterMap_cons, h]; rfl

theorem reread_text {s : String} (h : text? o key = some s) (keys : List String) :
    o.reread (key :: keys) = textField key s :: o.reread keys :=
  reread_of_some (text?_eq_some.1 h) keys

theorem reread_optionalText {t : Option String} (h : optionalText? o key = some t)
    (keys : List String) : o.reread (key :: keys) = optionalText key t ++ o.reread keys := by
  rw [optionalText?_eq_some] at h
  cases t with
  | none => exact reread_of_none h keys
  | some s => exact reread_of_some h keys

theorem reread_append (keys keys' : List String) :
    o.reread (keys ++ keys') = o.reread keys ++ o.reread keys' :=
  List.filterMap_append

theorem reread_cons (key : String) (keys : List String) : o.reread (key :: keys) = o.reread
    [key] ++ o.reread keys :=
  reread_append [key] keys

theorem keys_reread (keys : List String) : (o.reread keys).keys = keys.filter o.has := by
  induction keys with
  | nil => rfl
  | cons key keys ih =>
    cases h : o.get? key with
    | none => rw [reread_of_none h, ih, List.filter_cons, has, h]; rfl
    | some v => rw [reread_of_some h, keys_cons, ih, List.filter_cons, has, h]; rfl

theorem nodup_reread {keys : List String} (h : keys.Nodup) : (o.reread keys).keys.Nodup := by
  rw [keys_reread]
  exact h.filter _

theorem get?_reread (keys : List String) (key : String) :
    (o.reread keys).get? key = if key ∈ keys then (o.get? key).map Json.reread else none := by
  induction keys with
  | nil => rfl
  | cons k keys ih =>
    cases h : o.get? k with
    | none =>
      rw [reread_of_none h, ih]
      by_cases hk : key = k
      · subst hk; simp [h]
      · simp [hk]
    | some v =>
      rw [reread_of_some h, get?_cons, ih]
      by_cases hk : key = k
      · subst hk; simp [h]
      · simp [hk, Ne.symm hk]

end Record

/-! ## Rewritten records -/

/-- Every field is reread, but equal bounds may both come back as the lower one. -/
structure Rewritten (o o' : Record) : Prop where
  nodup : o'.keys.Nodup
  get? : ∀ key, key ≠ "max" → o'.get? key = (o.get? key).map Json.reread
  upper : o'.get? "max" = (o.get? "max").map Json.reread ∨ ∃ low high, o.get? "min" = some (.num low) ∧
    o.get? "max" = some (.num high) ∧ low.same high = true ∧ o'.get? "max" = some (.num low.reread)

theorem rewritten_reread {o o' : Record} {keys : List String} (hall : o.hasOnly keys = true)
    (hn : keys.Nodup) (h : o' = o.reread keys) : Rewritten o o' := by
  have hget : ∀ key, o'.get? key = (o.get? key).map Json.reread := by
    intro key
    rw [h, Record.get?_reread]
    split
    · rfl
    · next hk =>
      have : o.get? key = none :=
        Record.get?_eq_none_iff.2 fun hm => hk (Record.hasOnly_iff.1 hall key hm)
      rw [this, Option.map_none]
  exact ⟨h ▸ Record.nodup_reread hn, fun key _ => hget key, .inl (hget "max")⟩

theorem Number.same_reread {m n : Number} (h : m.same n = true) : m.reread.same n.reread = true := by
  cases m with
  | int i =>
    cases n with
    | int j =>
      simp only [same, beq_iff_eq] at h
      rw [h]
      exact same_refl _
    | float y => cases h
  | float x =>
    cases n with
    | int j => cases h
    | float y => exact h

namespace Written

variable {o : Record}

/-- The field of a tame record is no number out of range. -/
theorem reread_num_of_isTame (ht : (Json.obj o).isTame = true) {key : String} {n : Number}
    (h : o.get? key = some (.num n)) : n.reread = n :=
  Json.reread_of_narrow
  (Json.every_self ((Json.isTame_iff _).1 ((Json.every_obj.1 ht).2 _ (Record.mem_of_get? h))).2.1)

theorem isTame_of_get? (ht : (Json.obj o).isTame = true) {key : String} {v : Json}
    (h : o.get? key = some v) : v.isTame = true := (Json.every_obj.1 ht).2 _ (Record.mem_of_get? h)

end Written

namespace Rewritten

variable {o o' : Record}

theorem recovers (h : Rewritten o o') (hv : (Json.obj o).isValid = true) :
    Json.Recovers (.obj o) (.obj o') := by
  refine Json.recovers_of_get? (Json.nodup_of_isValid hv) h.nodup fun key => ?_
  have hplain : ∀ key, o'.get? key = (o.get? key).map Json.reread →
      Option.Rel Json.Recovers (o.get? key) (o'.get? key) := by
    intro key hk
    rw [hk]
    cases hx : o.get? key with
    | none => exact .none
    | some x => exact .some (Json.recovers_reread (isValid_of_get? hv hx))
  by_cases hk : key = "max"
  · subst hk
    rcases h.upper with hm | ⟨low, high, -, hhigh, hsame, hm⟩
    · exact hplain _ hm
    · rw [hhigh, hm]
      exact .some (Number.same_reread hsame)
  · exact hplain key (h.get? key hk)

theorem alike (h : Rewritten o o') (ht : (Json.obj o).isTame = true) : Alike o o' :=
  alike_of_recovers ht (h.recovers (Json.isValid_of_isTame ht))

end Rewritten

/-! ## Bounds -/

/-- The bounds of a record are written as a comparison, which is read as the given fields. -/
structure Bounded (o : Record) (ws : List String) (b : Option Comparison) (r : Record) : Prop where
  compared : Compared ws b
  none : b = none → r = []
  some : ∀ c span, b = some c → boundFields c span = pure r
  rewritten : ∀ keys : List String, o.hasOnly (keys ++ ["min", "max"]) = true →
    (keys ++ ["min", "max"]).Nodup →
    Rewritten o (o.reread keys ++ r)

namespace Bounded

variable {o r : Record} {ws : List String} {b : Option Comparison} {s : Statement}

theorem optional (h : Bounded o ws b r) (hs : s.comparison? = b) : optionalBounds s = pure r := by
  rw [optionalBounds, hs]
  cases b with
  | none => rw [h.none rfl]
  | some c => exact h.some c s.span rfl

theorem exists_comparison (h : Bounded o ws b r) (hne : ws ≠ []) : ∃ c, b = .some c := by
  cases b with
  | none => cases h.compared; exact absurd rfl hne
  | some c => exact ⟨c, rfl⟩

theorem required (h : Bounded o ws b r) (hne : ws ≠ []) (hs : s.comparison? = b) :
    requiredBounds s = pure r := by
  obtain ⟨c, rfl⟩ := h.exists_comparison hne
  rw [requiredBounds, hs]
  exact h.some c s.span rfl

end Bounded

/-- Fields that are reread in the order of the keys, the bounds last. -/
theorem rewritten_of_bounds {o r : Record} {keys : List String}
    (hall : o.hasOnly (keys ++ ["min", "max"]) = true) (hn : (keys ++ ["min", "max"]).Nodup)
    (h : r = o.reread ["min", "max"]) : Rewritten o (o.reread keys ++ r) :=
  rewritten_reread hall hn (by rw [h, Record.reread_append])

/-- Whatever the bounds are, what they are written as is read as them. -/
theorem exists_bounded {o : Record} (hv : (Json.obj o).isValid = true) {ws : List String}
    (h : bounds? o = some ws) : ∃ b r, Bounded o ws b r := by
  have hfinite : ∀ {key n}, o.get? key = some (.num n) → Json.ofNumber n.reread = .num n.reread :=
    fun hn => Json.ofNumber_of_isFinite (Number.isFinite_reread (isHeld_of_get? hv hn))
  rw [bounds?] at h
  split at h
  · next hmin hmax =>
    cases h
    refine ⟨none, [], .none, fun _ => rfl, (fun _ _ h => by cases h), fun keys hall hn =>
      rewritten_of_bounds hall hn ?_⟩
    rw [Record.reread_of_none hmin, Record.reread_of_none hmax, Record.reread_nil]
  · next low hmin hmax =>
    cases h
    refine ⟨_, [("min", .num low.reread)], .one .ge (isHeld_of_get? hv hmin), (fun h => by cases h), ?_,
      fun keys hall hn => rewritten_of_bounds hall hn ?_⟩
    · rintro c span ⟨⟩
      rw [← hfinite hmin]; rfl
    · rw [Record.reread_of_some hmin, Record.reread_of_none hmax, Record.reread_nil]; rfl
  · next high hmin hmax =>
    cases h
    refine ⟨_, [("max", .num high.reread)], .one .le (isHeld_of_get? hv hmax),
      (fun h => by cases h), ?_, fun keys hall hn => rewritten_of_bounds hall hn ?_⟩
    · rintro c span ⟨⟩
      rw [← hfinite hmax]; rfl
    · rw [Record.reread_of_none hmin, Record.reread_of_some hmax, Record.reread_nil]; rfl
  · next low high hmin hmax =>
    split at h
    -- equal bounds are written once, so the upper one comes back as the lower
    · next hsame =>
      cases h
      refine ⟨_, [("min", .num low.reread), ("max", .num low.reread)],
        .one .eq (isHeld_of_get? hv hmin), (fun h => by cases h), ?_, fun keys hall hn => ?_⟩
      · rintro c span ⟨⟩
        rw [← hfinite hmin]; rfl
      · have hplain := rewritten_of_bounds hall hn rfl
        have hkeys : "max" ∉ (o.reread keys).keys := by
          rw [Record.keys_reread]
          intro hm
          exact (List.disjoint_of_nodup_append hn) (List.mem_of_mem_filter hm) (by simp)
        rw [Record.reread_of_some hmin, Record.reread_of_some hmax, Record.reread_nil] at hplain
        refine ⟨by simpa using hplain.nodup, fun key hk => ?_, .inr ⟨low, high, hmin, hmax, hsame, ?_⟩⟩
        · rw [← hplain.get? key hk]
          simp only [Record.get?_append, Record.get?_cons, Json.reread, Ne.symm hk, if_false]
        · rw [Record.get?_append, Record.get?_eq_none_iff.2 hkeys]; rfl
    · cases h
      refine ⟨_, [("min", .num low.reread), ("max", .num high.reread)],
        .range (isHeld_of_get? hv hmin) (isHeld_of_get? hv hmax), (fun h => by cases h), ?_,
        fun keys hall hn => rewritten_of_bounds hall hn ?_⟩
      · rintro c span ⟨⟩
        rw [← hfinite hmin, ← hfinite hmax]; rfl
      · rw [Record.reread_of_some hmin, Record.reread_of_some hmax, Record.reread_nil]; rfl
  · cases h

theorem requiredBounds?_eq_some {o : Record} {ws : List String} :
    requiredBounds? o = some ws ↔ bounds? o = some ws ∧ ws ≠ [] := by
  rw [requiredBounds?, Option.filter_eq_some_iff]
  simp

namespace Rewritten

variable {o o' : Record}

/-- Numbers in a tame record are reread as themselves. -/
theorem map_number? (ht : (Json.obj o).isTame = true) (key : String) :
    ((o.get? key).map Json.reread).map Json.number? = (o.get? key).map Json.number? := by
  cases hx : o.get? key with
  | none => rfl
  | some x =>
    cases x with
    | num n => rw [Option.map_some, Json.reread, reread_num_of_isTame ht hx]
    | obj members => obtain ⟨_, hr⟩ := Json.exists_reread_obj members; rw [Option.map_some, hr]; rfl
    | _ => rfl

theorem bind_number? (h : Rewritten o o') (ht : (Json.obj o).isTame = true) (key : String)
    (hk : key ≠ "max") : (o'.get? key).bind Json.number? = (o.get? key).bind Json.number? := by
  have hjoin : ∀ v : Option Json, v.bind Json.number? = (v.map Json.number?).join := by
    intro v; cases v <;> rfl
  rw [hjoin, hjoin, h.get? key hk, map_number? ht]

theorem number? (h : Rewritten o o') (ht : (Json.obj o).isTame = true) (key : String)
    (hk : key ≠ "max") : Written.number? o' key = Written.number? o key := by
  rw [Written.number?, Written.number?, h.bind_number? ht key hk]

theorem bounds? (h : Rewritten o o') (ht : (Json.obj o).isTame = true) :
    Written.bounds? o' = Written.bounds? o := by
  have hlow : (o'.get? "min").map Json.number? = (o.get? "min").map Json.number? := by
    rw [h.get? "min" (by decide), map_number? ht]
  rcases h.upper with hmax | ⟨low, high, hmin, hmax, hsame, hmax'⟩
  · rw [bounds?_eq, bounds?_eq, hlow, hmax, map_number? ht]
  · rw [Written.bounds?, Written.bounds?, h.get? "min" (by decide), hmin, hmax, hmax']
    simp only [Option.map_some, Json.reread, reread_num_of_isTame ht hmin, Number.same_refl,
      hsame, if_true]

theorem requiredBounds? (h : Rewritten o o') (ht : (Json.obj o).isTame = true) :
    Written.requiredBounds? o' = Written.requiredBounds? o := by
  rw [Written.requiredBounds?, Written.requiredBounds?, h.bounds? ht]

theorem inlineValue (h : Rewritten o o') (ht : (Json.obj o).isTame = true) (key : String)
    (hk : key ≠ "max") : (match o'.get? key with
      | none => some []
      | some v => if isInline v then some [Written.value v] else none) =
    match o.get? key with
      | none => some []
      | some v => if isInline v then some [Written.value v] else none := by
  rw [h.get? key hk]
  cases hx : o.get? key with
  | none => rfl
  | some x =>
    have htx := isTame_of_get? ht hx
    simp only [Option.map_some, value_reread htx,
      Alike.isInline_of_recovers htx (Json.recovers_reread (Json.isValid_of_isTame htx))]

theorem referenceValue (h : Rewritten o o') (ht : (Json.obj o).isTame = true) (key : String)
    (hk : key ≠ "max") :
    (o'.get? key).map Written.referenceValue = (o.get? key).map Written.referenceValue := by
  rw [h.get? key hk, Option.map_map]
  exact Option.map_congr fun v hv => referenceValue_reread (isTame_of_get? ht hv)

end Rewritten

/-! ## Keyword lines -/

structure Leads (w : String) : Prop where
  isName : isName w.toList = true
  notSpecial : w ∉ specialWords
  notShaped : w ∉ ["mutate", "from", "in"]

def Restores (word : String) (fields : Statement → Nested → Attempt Record) (R : Record → Prop)
    (s : Statement) : Prop :=
  (∃ vs b, s.IsLine word vs b) ∧ ∃ r, (∀ body, fields s body = pure r) ∧ R r

namespace Leads

variable {word : String} {fields : Statement → Nested → Attempt Record} {R : Record → Prop}
  {args : List String} {Ps : List (Value → Prop)}

theorem parses_of (hw : Leads word) {bs : List String} {b : Option Comparison}
    (hargs : List.Forall₂ Word args Ps) (hb : Compared bs b)
    (h : ∀ s vs, s.IsLine word vs b → Meets Ps vs → ∃ r, (∀ body, fields s body = pure r) ∧ R r) :
    (Node.line (word :: (args ++ bs))).Parses (Restores word fields R) :=
  (Node.parses_compared hw.isName hw.notSpecial hw.notShaped hargs hb).imp
    fun s ⟨vs, hs, hvs⟩ => ⟨⟨vs, b, hs⟩, h s vs hs hvs⟩

theorem parses_plain (hw : Leads word) (hargs : List.Forall₂ Word args Ps)
    (h : ∀ s vs, s.IsLine word vs none → Meets Ps vs → ∃ r, (∀ body, fields s body = pure r) ∧ R r) :
    (Node.line (word :: args)).Parses fun s => s.comparison? = none ∧ Restores word fields R s :=
  (Node.parses_words hw.isName hw.notSpecial hw.notShaped hargs).imp
    fun s ⟨vs, hs, hvs⟩ => ⟨hs.comparison?, ⟨vs, none, hs⟩, h s vs hs hvs⟩

theorem parses_words (hw : Leads word) (hargs : List.Forall₂ Word args Ps)
    (h : ∀ s vs, s.IsLine word vs none → Meets Ps vs → ∃ r, (∀ body, fields s body = pure r) ∧ R r) :
    (Node.line (word :: args)).Parses (Restores word fields R) :=
  (hw.parses_plain hargs h).imp fun _ hs => hs.2

end Leads

/-! ## Keywords by their names -/

section
variable {κ : Type} {name : κ → String}

/-- A keyword is found by its own name and by no other. -/
theorem find?_name_iff {all : List κ} (hfound : ∀ k, all.find? (name · == name k) = some k)
    {word : String} {k : κ} : all.find? (name · == word) = some k ↔ word = name k := by
  constructor
  · intro h
    have hname := List.find?_some h
    exact (beq_iff_eq.1 hname).symm
  · rintro rfl
    exact hfound k

/-- A record is written by the keyword that its type names. -/
theorem typed_eq_some {ofName? : String → Option κ}
    (hname : ∀ {word k}, ofName? word = some k ↔ word = name k) {o : Record}
    {statement? : κ → Option Node} {n : Node} :
    ((text? o "type").bind fun word => (ofName? word).bind statement?) = some n ↔
      ∃ k, text? o "type" = some (name k) ∧ statement? k = some n := by
  simp only [Option.bind_eq_some_iff, hname]
  constructor
  · rintro ⟨_, htype, k, rfl, hk⟩
    exact ⟨k, htype, hk⟩
  · rintro ⟨k, htype, hk⟩
    exact ⟨_, htype, k, rfl, hk⟩

end

end Worldbook
