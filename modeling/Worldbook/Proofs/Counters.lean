import Mathlib.Data.List.Count
import Mathlib.Data.List.Induction
import Mathlib.Data.List.Nodup
import Mathlib.Data.List.Perm.Basic
import Worldbook.Proofs.Recovery
import Worldbook.Variable.Order

/-!
# Counters of mentions

The loop over the counters takes the first variable that mentions none of those still to come, as
long as there is one. Each counter holds the mentions of variables that are still to come, and what
is ready is what has none, so that no counter falls below zero.
-/

namespace Worldbook.Variables

/-! ## Draining -/

section

variable {α β : Type} {dep : α → α → Prop} {pending front rest : List α}

def Ready (dep : α → α → Prop) (pending : List α) (v : α) : Prop := ∀ w ∈ pending, ¬dep v w

/-- Taking the first ready item of the pending ones, as long as there is one, gives `front` and
leaves `rest`. -/
inductive Drains (dep : α → α → Prop) : List α → List α → List α → Prop
  | stuck {pending : List α} (h : ∀ v ∈ pending, ¬Ready dep pending v) : Drains dep pending [] pending
  | take {before : List α} {v : α} {after front rest : List α} (hv : Ready dep (before ++ v :: after) v)
      (hb : ∀ u ∈ before, ¬Ready dep (before ++ v :: after) u)
      (h : Drains dep (before ++ after) front rest) :
      Drains dep (before ++ v :: after) (v :: front) rest

namespace Drains

theorem perm (h : Drains dep pending front rest) : (front ++ rest).Perm pending := by
  induction h with
  | stuck => exact .refl _
  | take _ _ _ ih => exact (ih.cons _).trans List.perm_middle.symm

theorem map {dep' : β → β → Prop} {f : α → β} (h : Drains dep pending front rest)
    (hf : ∀ v ∈ pending, ∀ w ∈ pending, dep' (f v) (f w) ↔ dep v w) :
    Drains dep' (pending.map f) (front.map f) (rest.map f) := by
  have hready : ∀ {l : List α}, (∀ v ∈ l, ∀ w ∈ l, dep' (f v) (f w) ↔ dep v w) → ∀ v ∈ l,
      (Ready dep' (l.map f) (f v) ↔ Ready dep l v) := by
    intro l hl v hv
    rw [Ready, List.forall_mem_map]
    exact forall₂_congr fun w hw => not_congr (hl v hv w hw)
  induction h with
  | stuck h =>
    refine .stuck (List.forall_mem_map.2 fun v hv => ?_)
    rw [hready hf v hv]
    exact h v hv
  | @take before v after front rest hv hb _ ih =>
    have hsub : ∀ u ∈ before ++ after, u ∈ before ++ v :: after := by grind
    simp only [List.map_append, List.map_cons] at ih ⊢
    refine .take ?_ (List.forall_mem_map.2 fun u hu => ?_) (ih fun u hu w hw =>
      hf u (hsub u hu) w (hsub w hw))
    · have := (hready hf v (by simp)).2 hv
      rwa [List.map_append, List.map_cons] at this
    · have := mt (hready hf u (List.mem_append_left _ hu)).1 (hb u hu)
      rwa [List.map_append, List.map_cons] at this

theorem unique {front' rest' : List α} (h : Drains dep pending front rest)
    (h' : Drains dep pending front' rest') : front = front' ∧ rest = rest' := by
  induction h generalizing front' rest' with
  | @stuck pending hs =>
    cases h' with
    | stuck => exact ⟨rfl, rfl⟩
    | @take before v after _ _ hv => exact absurd hv (hs v (by simp))
  | @take before v after front rest hv hb h ih =>
    generalize hp : before ++ v :: after = pending at *
    cases h' with
    | stuck hs => exact absurd hv (hs v (by simp [← hp]))
    | @take before' v' after' front' rest' hv' hb' h' =>
      -- neither of the two ready items stands in front of the other
      obtain ⟨rfl, rfl, rfl⟩ : before = before' ∧ v = v' ∧ after = after' := by
        rcases List.append_eq_append_iff.1 hp with ⟨cs, rfl, hcs⟩ | ⟨cs, rfl, hcs⟩ <;> cases cs with
        | nil => simp_all
        | cons c cs =>
          rw [List.cons_append, List.cons.injEq] at hcs
          first
          | exact absurd (hcs.1 ▸ hv) (hb' c (by simp))
          | exact absurd (hcs.1 ▸ hv') (hb c (by simp))
      obtain ⟨rfl, rfl⟩ := ih h'
      exact ⟨rfl, rfl⟩

theorem again (h : Drains dep pending front rest) : Drains dep (front ++ rest) front rest := by
  induction h with
  | stuck h => exact .stuck h
  | @take before v after front rest hv _ h ih =>
    have hp : (v :: (front ++ rest)).Perm (before ++ v :: after) :=
      (h.perm.cons v).trans List.perm_middle.symm
    exact @Drains.take _ dep [] v (front ++ rest) front rest
      (fun w hw => hv w (hp.mem_iff.1 hw)) nofun ih

end Drains

end

/-! ## Ascending places -/

theorem mem_insertPlace {i k : Nat} {l : List Nat} : k ∈ insertPlace i l ↔ k = i ∨ k ∈ l := by
  induction l with
  | nil => simp [insertPlace]
  | cons j rest ih =>
    rw [insertPlace]
    split
    · exact List.mem_cons
    · split
      · next h => subst h; simp
      · rw [List.mem_cons, ih, List.mem_cons, or_left_comm]

theorem pairwise_insertPlace {i : Nat} {l : List Nat} (h : l.Pairwise (· < ·)) :
    (insertPlace i l).Pairwise (· < ·) := by
  induction l with
  | nil => exact List.pairwise_singleton ..
  | cons j rest ih =>
    obtain ⟨hj, hrest⟩ := List.pairwise_cons.1 h
    rw [insertPlace]
    split
    · next hij => exact List.pairwise_cons.2 ⟨by grind, h⟩
    · next hij =>
      split
      · exact h
      · next hne =>
        refine List.pairwise_cons.2 ⟨fun k hk => ?_, ih hrest⟩
        rcases mem_insertPlace.1 hk with rfl | hk
        · omega
        · exact hj k hk

/-! ## Who waits for whom -/

/-- The tables of as many variables as `size` says, of which the one at place `i` mentions those at
the places `deps i`. -/
structure Waits.Holds (w : Waits) (size : Nat) (deps : Nat → List Nat) : Prop where
  inDegree : ∀ i < size, w.inDegree[i]? = some (deps i).length
  dependents : ∀ d < size, ∃ l, w.dependents[d]? = some l ∧ ∀ i, l.count i = (deps i).count d

namespace Waits.Holds

variable {w : Waits} {size : Nat} {deps : Nat → List Nat}

theorem congr {deps' : Nat → List Nat} (h : w.Holds size deps) (he : ∀ i, deps' i = deps i) :
    w.Holds size deps' := by
  rwa [funext he]

theorem replicate (size : Nat) :
    Waits.Holds { dependents := List.replicate size [], inDegree := List.replicate size 0 } size
      fun _ => [] where
  inDegree i hi := by simp [hi]
  dependents d hd := ⟨[], by simp [hd], fun _ => rfl⟩

theorem add (h : w.Holds size deps) {i : Nat} (d : Nat) :
    (w.add i d).Holds size fun k => if k = i then deps k ++ [d] else deps k where
  inDegree k hk := by
    rw [Waits.add, List.getElem?_modify, h.inDegree k hk]
    by_cases hki : k = i
    · simp [hki]
    · simp [hki, Ne.symm hki]
  dependents e he := by
    obtain ⟨l, hl, hcount⟩ := h.dependents e he
    rw [Waits.add, List.getElem?_modify, hl]
    refine ⟨_, rfl, fun k => ?_⟩
    by_cases hde : d = e <;> by_cases hki : k = i <;> simp [hde, hki, hcount, Ne.symm]

theorem addAll (h : w.Holds size deps) (i : Nat) (ds : List Nat) :
    (ds.foldl (Waits.add i) w).Holds size fun k => if k = i then deps k ++ ds else deps k := by
  induction ds generalizing w deps with
  | nil => exact h.congr fun k => by simp
  | cons d ds ih =>
    refine (ih (h.add (i := i) d)).congr fun k => ?_
    by_cases hk : k = i <;> simp [hk]

end Waits.Holds

def mentionedAt (vars : Record) (i : Nat) : List Nat :=
  match vars[i]? with
  | none => []
  | some m => mentionedPlaces vars m.1 i

variable {vars : Record}

theorem place?_lt {name : String} {i : Nat} (h : place? vars name = some i) : i < vars.length := by
  obtain ⟨m, hm, rfl⟩ := Option.map_eq_some_iff.1 h
  exact List.snd_lt_of_mem_zipIdx (List.mem_reverse.1 (List.mem_of_find?_eq_some hm))

theorem mentionedAt_lt {i d : Nat} (h : d ∈ mentionedAt vars i) : d < vars.length := by
  rw [mentionedAt] at h
  split at h
  · cases h
  · rw [mentionedPlaces] at h
    split at h
    · cases h
    · obtain ⟨name, -, hname⟩ := List.mem_filterMap.1 (List.mem_filter.1 h).1
      exact place?_lt hname

theorem lt_of_mem_mentionedAt {i d : Nat} (h : d ∈ mentionedAt vars i) : i < vars.length := by
  by_contra hi
  rw [mentionedAt, List.getElem?_eq_none (Nat.le_of_not_lt hi)] at h
  cases h

theorem waits_holds (vars : Record) : (waits vars).Holds vars.length (mentionedAt vars) := by
  have hfold : ∀ ms : Record, (((ms.map (·.1)).zipIdx.foldl
      (fun w m => (mentionedPlaces vars m.1 m.2).foldl (Waits.add m.2) w)
      { dependents := List.replicate vars.length [], inDegree := List.replicate vars.length 0 }).Holds
        vars.length fun i => match ms[i]? with
          | none => []
          | some m => mentionedPlaces vars m.1 i) := by
    intro ms
    induction ms using List.reverseRecOn with
    | nil => exact .replicate _
    | append_singleton ms m ih =>
      rw [List.map_append, List.zipIdx_append, List.foldl_append]
      refine (ih.addAll _ _).congr fun i => ?_
      rcases Nat.lt_trichotomy i ms.length with hi | rfl | hi
      · simp [List.getElem?_append_left hi, Nat.ne_of_lt hi]
      · simp
      · simp [List.getElem?_append_right (Nat.le_of_lt hi), Nat.ne_of_gt hi, Nat.sub_ne_zero_of_lt hi,
          Nat.le_of_lt hi]
  exact hfold vars

/-! ## The counters in a round -/

/-- The counters of `size` variables, of which the one at place `i` mentions those at the places
`deps i`, while the ones at the places `owed` have still to lose one each. -/
structure Tally.Counts (t : Tally) (size : Nat) (deps : Nat → List Nat) (owed : List Nat) : Prop where
  length_emitted : t.emitted.length = size
  inDegree : ∀ i < size, t.inDegree[i]? = some ((deps i).countP t.isPending + owed.count i)
  mem_ready : ∀ i : Nat, i ∈ t.ready ↔ t.isPending i = true ∧ t.inDegree[i]? = some 0
  ascending : t.ready.Pairwise (· < ·)
  emitted : ∀ i : Nat, t.emitted[i]? = some true → t.inDegree[i]? = some 0

theorem Tally.release_of_succ {t : Tally} {i count : Nat} (h : t.inDegree[i]? = some (count + 1)) :
    t.release i = some { t with
      inDegree := t.inDegree.set i count
      ready := if count = 0 then insertPlace i t.ready else t.ready } := by
  rw [release, h]

theorem Tally.isPending_of_emitted {t t' : Tally} {i : Nat} (hi : t.isPending i = true)
    (h : t'.emitted = t.emitted.set i true) : t'.isPending = fun k => t.isPending k && k != i := by
  have hsome : t.emitted[i]? = some false := by simpa [isPending] using hi
  have hlt := (List.getElem?_eq_some_iff.1 hsome).1
  funext k
  rw [isPending, h]
  by_cases hki : k = i
  · subst hki
    simp [List.getElem?_set_self hlt]
  · simp [isPending, List.getElem?_set_ne (Ne.symm hki), hki]

namespace Tally.Counts

variable {t : Tally} {size : Nat} {deps : Nat → List Nat} {owed : List Nat}

theorem isPending_or (h : t.Counts size deps owed) {i : Nat} (hi : i < size) :
    t.isPending i = true ∨ t.emitted[i]? = some true := by
  have hlt : i < t.emitted.length := h.length_emitted ▸ hi
  rw [isPending, List.getElem?_eq_getElem hlt]
  cases t.emitted[i] <;> simp

theorem lt_of_isPending (h : t.Counts size deps owed) {i : Nat} (hi : t.isPending i = true) :
    i < size := by
  have hsome : t.emitted[i]? = some false := by simpa [isPending] using hi
  exact h.length_emitted ▸ (List.getElem?_eq_some_iff.1 hsome).1

/-- A counter that has still to lose one is above zero. -/
theorem release {i : Nat} (h : t.Counts size deps (i :: owed)) (hi : i < size) :
    ∃ t', t.release i = some t' ∧ t'.Counts size deps owed ∧ t'.emitted = t.emitted ∧
    t'.order = t.order := by
  have hcount := h.inDegree i hi
  rw [List.count_cons_self, ← Nat.add_assoc] at hcount
  generalize hc : (deps i).countP t.isPending + owed.count i = count at hcount
  have hlt : i < t.inDegree.length := (List.getElem?_eq_some_iff.1 hcount).1
  have hpending : t.isPending i = true := (h.isPending_or hi).resolve_right fun he => by
    have := h.emitted i he
    rw [hcount] at this
    cases this
  refine ⟨_, release_of_succ hcount,
    ⟨h.length_emitted, fun k hk => ?_, fun k => ?_, ?_, fun k hk => ?_⟩, rfl, rfl⟩
  · by_cases hki : k = i
    · subst hki
      rw [List.getElem?_set_self hlt, ← hc]
      rfl
    · rw [List.getElem?_set_ne (Ne.symm hki), h.inDegree k hk, List.count_cons_of_ne (Ne.symm hki)]
      rfl
  · change k ∈ (if count = 0 then insertPlace i t.ready else t.ready) ↔ t.isPending k = true ∧ _
    by_cases hki : k = i
    · subst hki
      rw [List.getElem?_set_self hlt]
      split
      · next h0 => simp [mem_insertPlace, hpending, h0]
      · next h0 => simp [h.mem_ready, hcount, h0]
    · rw [List.getElem?_set_ne (Ne.symm hki), ← h.mem_ready k]
      split
      · simp [mem_insertPlace, hki]
      · rfl
  · split
    · exact pairwise_insertPlace h.ascending
    · exact h.ascending
  · have hki : i ≠ k := by
      rintro rfl
      simp [isPending, hk] at hpending
    rw [List.getElem?_set_ne hki]
    exact h.emitted k hk

theorem releaseAll (h : t.Counts size deps owed) (howed : ∀ i ∈ owed, i < size) :
    ∃ t', owed.foldlM Tally.release t = some t' ∧ t'.Counts size deps [] ∧ t'.emitted = t.emitted ∧
      t'.order = t.order := by
  induction owed generalizing t with
  | nil => exact ⟨t, rfl, h, rfl, rfl⟩
  | cons i owed ih =>
    obtain ⟨hi, howed⟩ := List.forall_mem_cons.1 howed
    obtain ⟨u, hu, hcounts, hemitted, horder⟩ := h.release hi
    obtain ⟨t', ht', hcounts', hemitted', horder'⟩ := ih hcounts howed
    exact ⟨t', by rw [List.foldlM_cons, hu]; exact ht', hcounts', hemitted'.trans hemitted,
      horder'.trans horder⟩

theorem lt_of_mem_ready {i k : Nat} {ready : List Nat} (h : t.Counts size deps owed)
    (hr : t.ready = i :: ready) (hk : k ∈ ready) : i < k := by
  have := h.ascending
  rw [hr, List.pairwise_cons] at this
  exact this.1 k hk

/-- The counters of those that mention what is emitted are one above the
pending ones they mention. -/
theorem countP_emitted {i : Nat} (hi : t.isPending i = true) (l : List Nat) :
    l.countP t.isPending = l.countP (fun k => t.isPending k && k != i) + l.count i := by
  induction l with
  | nil => rfl
  | cons k l ih =>
    rw [List.countP_cons, List.countP_cons, List.count_cons, ih]
    by_cases hki : k = i
    · subst hki; simp [hi]; omega
    · simp [hki]; omega

/-- What is emitted owes one to each of those that mention it. -/
theorem emitted_counts {i : Nat} {ready released : List Nat} (h : t.Counts size deps [])
    (hr : t.ready = i :: ready) (hd : ∀ k, released.count k = (deps k).count i) (order : List String) :
    Counts { t with ready, emitted := t.emitted.set i true, order } size deps released := by
  obtain ⟨hi, hzero⟩ := (h.mem_ready i).1 (by rw [hr]; exact List.mem_cons_self ..)
  have hpending : isPending { t with ready, emitted := t.emitted.set i true, order } =
      fun k => t.isPending k && k != i := isPending_of_emitted hi rfl
  refine ⟨by rw [List.length_set, h.length_emitted], fun k hk => ?_, fun k => ?_, ?_, fun k hk => ?_⟩
  · rw [h.inDegree k hk, hd, hpending, countP_emitted hi]
    rfl
  · have hmem := h.mem_ready k
    rw [hr, List.mem_cons] at hmem
    rw [hpending, Bool.and_eq_true, bne_iff_ne, and_right_comm, ← hmem]
    have : k ∈ ready → k ≠ i := fun hk => Nat.ne_of_gt (h.lt_of_mem_ready hr hk)
    grind
  · have := h.ascending
    rw [hr, List.pairwise_cons] at this
    exact this.2
  · by_cases hki : k = i
    · exact hki ▸ hzero
    · exact h.emitted k (by rwa [List.getElem?_set_ne (Ne.symm hki)] at hk)

/-- A round emits the lowest ready place, and no counter of its dependents falls below zero. -/
theorem emit {i : Nat} {ready : List Nat} {key : String} {keys : List String} {w : Waits}
    (h : t.Counts size deps []) (hw : w.Holds size deps) (hdeps : ∀ k, deps k ≠ [] → k < size)
    (hr : t.ready = i :: ready) (hk : keys[i]? = some key) :
    ∃ t', t.emit keys w.dependents i ready = some t' ∧ t'.Counts size deps [] ∧
      t'.emitted = t.emitted.set i true ∧ t'.order = t.order ++ [key] := by
  have hi : i < size :=
    h.lt_of_isPending ((h.mem_ready i).1 (by rw [hr]; exact List.mem_cons_self ..)).1
  obtain ⟨released, hreleased, hcount⟩ := hw.dependents i hi
  have hlt : ∀ k ∈ released, k < size := fun k hk => hdeps k fun he => by
    have := List.count_pos_iff.2 hk
    rw [hcount, he] at this
    cases this
  obtain ⟨t', ht', hcounts, hemitted, horder⟩ :=
    (h.emitted_counts hr hcount (t.order ++ [key])).releaseAll hlt
  exact ⟨t', by simp [Tally.emit, hk, hreleased, ht'], hcounts, hemitted, horder⟩

end Tally.Counts

/-! ## The run -/

def Tally.pending (t : Tally) (size : Nat) : List Nat := (List.range size).filter t.isPending

namespace Tally.Counts

variable {t : Tally} {size : Nat} {deps : Nat → List Nat}

theorem mem_pending {owed : List Nat} (h : t.Counts size deps owed) {i : Nat} :
    i ∈ t.pending size ↔ t.isPending i = true := by
  rw [pending, List.mem_filter, List.mem_range]
  exact and_iff_right_of_imp h.lt_of_isPending

theorem ready_iff (h : t.Counts size deps []) {i : Nat} (hi : i ∈ t.pending size) :
    Ready (fun i d => d ∈ deps i) (t.pending size) i ↔ i ∈ t.ready := by
  have hi' := h.mem_pending.1 hi
  rw [h.mem_ready, h.inDegree i (h.lt_of_isPending hi'), List.count_nil, Nat.add_zero,
    Option.some.injEq, List.countP_eq_zero, and_iff_right hi', Ready]
  simp only [h.mem_pending]
  exact ⟨fun hd d hm hp => hd d hp hm, fun hd d hp hm => hd d hm hp⟩

/-- The lowest ready place is the first one in the pending ones that is ready. -/
theorem exists_pending_eq {i : Nat} {ready : List Nat} (h : t.Counts size deps [])
    (hr : t.ready = i :: ready) : ∃ before after, t.pending size = before ++ i :: after ∧
      (∀ u ∈ before, ¬Ready (fun i d => d ∈ deps i) (t.pending size) u) ∧
      ∀ t' : Tally, t'.emitted = t.emitted.set i true → t'.pending size = before ++ after := by
  have hi : t.isPending i = true := ((h.mem_ready i).1 (by rw [hr]; exact List.mem_cons_self ..)).1
  obtain ⟨before, after, hp⟩ := List.append_of_mem (h.mem_pending.2 hi)
  have hascending : (before ++ i :: after).Pairwise (· < ·) := hp ▸ List.pairwise_lt_range.filter _
  obtain ⟨-, hafter, hbefore⟩ := List.pairwise_append.1 hascending
  have hbi : ∀ u ∈ before, u < i := fun u hu => hbefore u hu i (List.mem_cons_self ..)
  have hai : ∀ u ∈ after, i < u := (List.pairwise_cons.1 hafter).1
  refine ⟨before, after, hp, fun u hu hready => ?_, fun t' ht' => ?_⟩
  · rw [h.ready_iff (by rw [hp]; exact List.mem_append_left _ hu), hr, List.mem_cons] at hready
    have := hbi u hu
    rcases hready with rfl | hready
    · omega
    · have := h.lt_of_mem_ready hr hready
      omega
  · have hne : ∀ u ∈ before ++ after, u ≠ i := fun u hu => by
      rcases List.mem_append.1 hu with hu | hu
      · exact Nat.ne_of_lt (hbi u hu)
      · exact Nat.ne_of_gt (hai u hu)
    have hfilter : t'.pending size = (t.pending size).filter (· != i) := by
      simp only [pending, isPending_of_emitted hi ht', List.filter_filter, Bool.and_comm]
    rw [hfilter, hp, List.filter_append, List.filter_cons_of_neg (by simp), ← List.filter_append,
      List.filter_eq_self]
    simpa using hne

theorem drain_nil (keys : List String) (dependents : List (List Nat)) (rounds : Nat)
    (hr : t.ready = []) : t.drain keys dependents rounds = some t := by
  unfold Tally.drain
  rw [hr]

theorem drain_cons (keys : List String) (dependents : List (List Nat)) (rounds : Nat) {i : Nat}
    {ready : List Nat} (hr : t.ready = i :: ready) : t.drain keys dependents (rounds + 1) =
      (t.emit keys dependents i ready).bind (Tally.drain keys dependents rounds) := by
  rw [Tally.drain.eq_def, hr]
  rfl

/-- The run of the counters takes the first ready place each time, and comes to an end. -/
theorem drain {w : Waits} (h : t.Counts size deps []) (hw : w.Holds size deps)
    (hdeps : ∀ k, deps k ≠ [] → k < size) {keys : List String} (hkeys : keys.length = size)
    {rounds : Nat} (hrounds : (t.pending size).length ≤ rounds) :
    ∃ t' taken, t.drain keys w.dependents rounds = some t' ∧
      t'.order = t.order ++ taken.map (keys.getD · "") ∧
      Drains (fun i d => d ∈ deps i) (t.pending size) taken (t'.pending size) := by
  induction rounds generalizing t with
  | zero =>
    have hnil : t.pending size = [] := List.length_eq_zero_iff.1 (Nat.le_zero.1 hrounds)
    have hr : t.ready = [] := List.eq_nil_iff_forall_not_mem.2 fun i hi => by
      have := h.mem_pending.2 ((h.mem_ready i).1 hi).1
      rw [hnil] at this
      cases this
    refine ⟨t, [], drain_nil _ _ _ hr, by simp, ?_⟩
    rw [hnil]
    exact .stuck nofun
  | succ rounds ih =>
    cases hr : t.ready with
    | nil =>
      refine ⟨t, [], drain_nil _ _ _ hr, by simp, .stuck fun i hi => ?_⟩
      rw [h.ready_iff hi, hr]
      exact List.not_mem_nil
    | cons i ready =>
      obtain ⟨before, after, hp, hb, hrest⟩ := h.exists_pending_eq hr
      have hip : i ∈ t.pending size := by rw [hp]; simp
      have hi : i < keys.length := hkeys ▸ h.lt_of_isPending (h.mem_pending.1 hip)
      obtain ⟨u, hu, hcounts, hemitted, horder⟩ := h.emit hw hdeps hr (List.getElem?_eq_getElem hi)
      have hrest := hrest u hemitted
      obtain ⟨t', taken, ht', horder', hd⟩ := ih hcounts (by
        rw [hp] at hrounds
        rw [hrest]
        simp only [List.length_append, List.length_cons] at hrounds ⊢
        omega)
      refine ⟨t', i :: taken, ?_, ?_, ?_⟩
      · rw [drain_cons _ _ _ hr, hu]
        exact ht'
      · simp [horder', horder, hi]
      · have hready := (h.ready_iff hip).2 (by rw [hr]; exact List.mem_cons_self ..)
        rw [hp] at hready hb ⊢
        exact .take hready hb (hrest ▸ hd)

end Tally.Counts

theorem tally_counts (vars : Record) : (tally vars).Counts vars.length (mentionedAt vars) [] where
  length_emitted := List.length_replicate
  inDegree i hi := by
    rw [tally, (waits_holds vars).inDegree i hi, List.count_nil, Nat.add_zero, List.countP_eq_length.2]
    intro d hd
    simp [Tally.isPending, mentionedAt_lt hd]
  mem_ready i := by
    simp [tally, Tally.isPending, List.getElem?_replicate]
  ascending := List.pairwise_lt_range.filter _
  emitted i hi := by simp [tally, List.getElem?_replicate] at hi

theorem zipIdx_eq_map_range (keys : List String) :
    keys.zipIdx = (List.range keys.length).map fun i => (keys.getD i "", i) := by
  refine List.ext_getElem (by simp) fun i hi hi' => ?_
  have hlt : i < keys.length := by simpa using hi
  simp [hlt]

theorem left_eq (keys : List String) (t : Tally) :
    t.left keys = (t.pending keys.length).map (keys.getD · "") := by
  rw [Tally.left, zipIdx_eq_map_range, List.filter_map, List.map_map]
  rfl

/-- The counters give an order of all variables: that of taking the first ready one each time. -/
theorem exists_drains (vars : Record) : ∃ front rest,
    order? vars = some ((front ++ rest).map (vars.keys.getD · "")) ∧
    Drains (fun i d => d ∈ mentionedAt vars i) (List.range vars.length) front rest := by
  have hlength : vars.keys.length = vars.length := List.length_map ..
  have hpending : (tally vars).pending vars.length = List.range vars.length := by
    rw [Tally.pending, List.filter_eq_self]
    intro i hi
    simp [tally, Tally.isPending, List.mem_range.1 hi]
  have hlt : ∀ i, mentionedAt vars i ≠ [] → i < vars.length := fun i hi => by
    obtain ⟨d, hd⟩ := List.exists_mem_of_ne_nil _ hi
    exact lt_of_mem_mentionedAt hd
  have hrounds : ((tally vars).pending vars.length).length ≤ vars.keys.length := by
    simp [hpending, hlength]
  obtain ⟨t, front, ht, horder, hd⟩ := (tally_counts vars).drain (waits_holds vars) hlt hlength hrounds
  rw [hpending] at hd
  refine ⟨front, _, ?_, hd⟩
  change (Option.bind ((tally vars).drain vars.keys (waits vars).dependents vars.keys.length)
    fun t => some (t.order ++ t.left vars.keys)) = _
  rw [ht, Option.bind_some, horder, left_eq, hlength, List.map_append]
  rfl

end Worldbook.Variables
