import Mathlib.Data.Fintype.Card
import Mathlib.Data.Fintype.EquivFin
import Mathlib.Data.Fintype.Sets
import Mathlib.Logic.Relation
import Worldbook.Proofs.Variables

/-!
# Dependencies come first

The variables that no cycle holds back come first, each behind what it depends on, and the others
keep their order behind them. Taking the first variable that is ready makes the order the smallest
of all that put dependencies first, by where the variables are declared.
-/

namespace Worldbook.Variables

open Relation

variable {vars : Record}

/-! ## Cycles -/

/-- The variable lies on a cycle, or depends on one that does. -/
def Entangled (vars : Record) (v : String) : Prop :=
  ∃ w, ReflTransGen (DependsOn vars) v w ∧ TransGen (DependsOn vars) w w

def Acyclic (vars : Record) : Prop := ∀ v, ¬TransGen (DependsOn vars) v v

theorem DependsOn.mem_left {v w : String} (h : DependsOn vars v w) : v ∈ vars.keys := by
  obtain ⟨-, -, value, hv, -⟩ := h
  exact Record.has_iff.1 (Option.isSome_iff_exists.2 ⟨value, hv⟩)

theorem DependsOn.mem_right {v w : String} (h : DependsOn vars v w) : w ∈ vars.keys := h.2.1

theorem Entangled.of_dependsOn {v w : String} (h : DependsOn vars v w) (hw : Entangled vars w) :
    Entangled vars v := by
  obtain ⟨u, hwu, hu⟩ := hw
  exact ⟨u, hwu.head h, hu⟩

theorem Acyclic.not_entangled (h : Acyclic vars) (v : String) :
    ¬Entangled vars v := fun ⟨w, _, hw⟩ => h w hw

/-- A number that falls along the dependencies of some variables keeps them off every cycle. -/
theorem not_entangled_of_rank {P : String → Prop} (rank : String → Nat)
    (h : ∀ v w, P v → DependsOn vars v w → P w ∧ rank w < rank v) {v : String} (hv : P v) :
    ¬Entangled vars v := by
  have keeps : ∀ {a b}, ReflTransGen (DependsOn vars) a b → P a → P b := by
    intro a b hab ha
    induction hab with
    | refl => exact ha
    | tail _ hstep ih => exact (h _ _ ih hstep).1
  have falls : ∀ {a b}, TransGen (DependsOn vars) a b → P a → rank b < rank a := by
    intro a b hab ha
    induction hab with
    | single hstep => exact (h _ _ ha hstep).2
    | tail hab hstep ih => exact Nat.lt_trans (h _ _ (keeps hab.to_reflTransGen ha) hstep).2 ih
  rintro ⟨w, hvw, hww⟩
  exact Nat.lt_irrefl _ (falls hww (keeps hvw hv))

/-- Among variables that each depend on another of them, every one is entangled: a least one of
those that are not would depend on a smaller one. -/
theorem entangled_of_stuck {rest : List String} (h : ∀ v ∈ rest, ∃ w ∈ rest, DependsOn vars v w) :
    ∀ v ∈ rest, Entangled vars v := by
  intro v hv
  by_contra hfree
  let Below (a b : { u // u ∈ rest }) : Prop := ¬Entangled vars b ∧ TransGen (DependsOn vars) b a
  have : IsTrans _ Below := ⟨fun _ _ _ hab hbc => ⟨hbc.1, hbc.2.trans hab.2⟩⟩
  have : Std.Irrefl Below := ⟨fun a ha => ha.1 ⟨a, .refl, ha.2⟩⟩
  obtain ⟨m, hm, hmin⟩ := (Finite.wellFounded_of_trans_of_irrefl Below).has_min
    { u | ¬Entangled vars u } ⟨⟨v, hv⟩, hfree⟩
  obtain ⟨w, hw, hmw⟩ := h m m.2
  exact hmin ⟨w, hw⟩ (fun he => hm (.of_dependsOn hmw he)) ⟨hm, .single hmw⟩

/-! ## What is taken and what is left -/

namespace Drains

variable {pending front rest : List String}

theorem sublist (h : Drains (DependsOn vars) pending front rest) : rest.Sublist pending := by
  induction h with
  | stuck => exact .refl _
  | take _ _ _ ih => exact ih.trans ((List.sublist_cons_self ..).append_left _)

theorem exists_dependsOn (h : Drains (DependsOn vars) pending front rest) :
    ∀ v ∈ rest, ∃ w ∈ rest, DependsOn vars v w := by
  induction h with
  | stuck h =>
    intro v hv
    have := h v hv
    simpa [Ready] using this
  | take _ _ _ ih => exact ih

theorem dependency_first (h : Drains (DependsOn vars) pending front rest) {v w : String}
    (hv : v ∈ front) (hw : w ∈ pending) (hd : DependsOn vars v w) :
    w ∈ front ∧ front.idxOf w < front.idxOf v := by
  induction h with
  | stuck => cases hv
  | @take before u after front rest hu _ _ ih =>
    have hvu : v ≠ u := by
      rintro rfl
      exact hu w hw hd
    have hvf : v ∈ front := List.mem_of_ne_of_mem hvu hv
    by_cases hwu : w = u
    · subst hwu
      exact ⟨List.mem_cons_self .., by rw [List.idxOf_cons_self, List.idxOf_cons_ne _ hd.1]; omega⟩
    · obtain ⟨hwf, hlt⟩ := ih hvf (by simpa [hwu] using hw)
      refine ⟨List.mem_cons_of_mem _ hwf, ?_⟩
      rw [List.idxOf_cons_ne _ (Ne.symm hwu), List.idxOf_cons_ne _ (Ne.symm hvu)]
      omega

theorem entangled (h : Drains (DependsOn vars) pending front rest) : ∀ v ∈ rest, Entangled vars v :=
  entangled_of_stuck h.exists_dependsOn

theorem not_entangled (h : Drains (DependsOn vars) vars.keys front rest) :
    ∀ v ∈ front, ¬Entangled vars v :=
  fun _ => not_entangled_of_rank (P := (· ∈ front)) front.idxOf fun _ _ hv hd =>
    h.dependency_first hv hd.mem_right hd

theorem mem_front (h : Drains (DependsOn vars) vars.keys front rest) {v : String} (hv : v ∈ vars.keys)
    (hfree : ¬Entangled vars v) : v ∈ front :=
  (List.mem_append.1 (h.perm.mem_iff.2 hv)).resolve_right fun hrest => hfree (h.entangled v hrest)

theorem dependency_lt (h : Drains (DependsOn vars) vars.keys front rest) {v w : String}
    (hfree : ¬Entangled vars v) (hd : DependsOn vars v w) :
    (front ++ rest).idxOf w < (front ++ rest).idxOf v := by
  have hv := h.mem_front hd.mem_left hfree
  obtain ⟨hw, hlt⟩ := h.dependency_first hv hd.mem_right hd
  rwa [List.idxOf_append_of_mem hw, List.idxOf_append_of_mem hv]

theorem entangled_last (h : Drains (DependsOn vars) vars.keys front rest) {v u : String}
    (hv : v ∈ vars.keys) (hfree : ¬Entangled vars v) (he : Entangled vars u) :
    (front ++ rest).idxOf v < (front ++ rest).idxOf u := by
  have hvf := h.mem_front hv hfree
  have huf : u ∉ front := fun hu => h.not_entangled u hu he
  rw [List.idxOf_append_of_mem hvf, List.idxOf_append_of_notMem huf]
  exact Nat.lt_add_right _ (List.idxOf_lt_length_of_mem hvf)

end Drains

/-- The counters never run below zero, and the order holds every variable once.
Where names are distinct, what no cycle holds back stands behind its
dependencies and in front of the rest, which keeps the order of declaration. -/
theorem order_topological (vars : Record) : order? vars = some (order vars) ∧
    (order vars).Perm vars.keys ∧ (vars.keys.Nodup → (order vars).Nodup) ∧
    (DistinctBases vars →
      (∀ v ∈ vars.keys, ¬Entangled vars v →
        (∀ w, DependsOn vars v w → (order vars).idxOf w < (order vars).idxOf v) ∧
        ∀ u ∈ vars.keys, Entangled vars u → (order vars).idxOf v < (order vars).idxOf u) ∧
      (∃ front rest, order vars = front ++ rest ∧ (∀ v ∈ front, ¬Entangled vars v) ∧
        (∀ v ∈ rest, Entangled vars v) ∧ rest.Sublist vars.keys) ∧
      (Acyclic vars → ∀ v w, DependsOn vars v w → (order vars).idxOf w < (order vars).idxOf v)) := by
  refine ⟨order?_eq_some vars, order_perm vars, (order_perm vars).nodup_iff.2, fun h => ?_⟩
  obtain ⟨front, rest, horder, hd⟩ := drains_order h
  rw [horder]
  refine ⟨fun v hv hfree =>
    ⟨fun w hw => hd.dependency_lt hfree hw, fun u _ he => hd.entangled_last hv hfree he⟩,
    ⟨front, rest, rfl, hd.not_entangled, hd.entangled, hd.sublist⟩, fun hac v w hw => ?_⟩
  exact hd.dependency_lt (hac.not_entangled v) hw

/-- Two variables on a cycle, one behind it, and two apart from it, the first of which also mentions
itself. -/
def tangle : Record :=
  [("$x", .str "$y"), ("w", .arr [.str "$x"]), ("a", .str "$b, $a"), ("$y", .obj [("$x", .null)]),
    ("b", .str "$c")]

theorem order_topological_tangle : DistinctBases tangle ∧ order tangle = ["b", "a", "$x", "w", "$y"] ∧
    Entangled tangle "w" ∧ ¬Entangled tangle "a" ∧ DependsOn tangle "a" "b" ∧
    (order tangle).idxOf "b" < (order tangle).idxOf "a" ∧
    (order tangle).idxOf "a" < (order tangle).idxOf "w" := by
  have hd : DistinctBases tangle := by decide
  have hw : Entangled tangle "w" :=
    ⟨"$x", .single (by decide), .head (b := "$y") (by decide) (.single (by decide))⟩
  have ha : ¬Entangled tangle "a" := by
    have hfalls : ∀ v ∈ ["b", "a"], ∀ w ∈ tangle.keys, DependsOn tangle v w →
        w ∈ ["b", "a"] ∧ ["b", "a"].idxOf w < ["b", "a"].idxOf v := by
      decide
    exact not_entangled_of_rank (P := (· ∈ ["b", "a"])) (["b", "a"].idxOf ·)
      (fun v w hv hvw => hfalls v hv w hvw.mem_right hvw) (by decide)
  obtain ⟨hfirst, hlast⟩ := ((order_topological tangle).2.2.2 hd).1 "a" (by decide) ha
  have hab : DependsOn tangle "a" "b" := by decide
  exact ⟨hd, by decide, hw, ha, hab, hfirst "b" hab, hlast "w" (by decide) hw⟩

/-! ## The smallest order -/

def Respects (vars : Record) (l : List String) : Prop :=
  ∀ v ∈ l, ∀ w ∈ l, DependsOn vars v w → l.idxOf w < l.idxOf v

theorem Respects.ready_head {x : String} {l : List String} (h : Respects vars (x :: l)) :
    Ready (DependsOn vars) (x :: l) x := by
  intro w hw hd
  have hlt := h x (List.mem_cons_self ..) w hw hd
  rw [List.idxOf_cons_self] at hlt
  exact Nat.not_lt_zero _ hlt

theorem Respects.tail {x : String} {l : List String} (hx : x ∉ l) (h : Respects vars (x :: l)) :
    Respects vars l := by
  intro v hv w hw hd
  have hlt := h v (List.mem_cons_of_mem _ hv) w (List.mem_cons_of_mem _ hw) hd
  rw [List.idxOf_cons_ne _ (ne_of_mem_of_not_mem hw hx).symm,
    List.idxOf_cons_ne _ (ne_of_mem_of_not_mem hv hx).symm] at hlt
  exact Nat.lt_of_succ_lt_succ hlt

instance (vars : Record) (l : List String) : Decidable (Respects vars l) :=
  inferInstanceAs (Decidable (∀ v ∈ l, ∀ w ∈ l, DependsOn vars v w → l.idxOf w < l.idxOf v))

/-- Where some order puts dependencies first, there is no cycle. -/
theorem acyclic_of_respects {l : List String} (hp : l.Perm vars.keys) (h : Respects vars l) :
    Acyclic vars := by
  intro v hv
  refine not_entangled_of_rank (P := fun _ => True) l.idxOf (fun v w _ hd => ⟨trivial, ?_⟩) trivial
    ⟨v, .refl, hv⟩
  exact h v (hp.mem_iff.2 hd.mem_left) w (hp.mem_iff.2 hd.mem_right) hd

theorem Ready.of_perm {l l' : List String} {v : String} (hp : l'.Perm l)
    (h : Ready (DependsOn vars) l v) : Ready (DependsOn vars) l' v := fun w hw => h w (hp.mem_iff.1 hw)

namespace Drains

variable {pending front rest : List String}

theorem least (h : Drains (DependsOn vars) pending front rest) {rank : String → Nat}
    (hrank : pending.Pairwise fun a b => rank a < rank b) {l : List String} (hp : l.Perm pending)
    (hl : Respects vars l) :
    l = front ++ rest ∨ List.Lex (· < ·) ((front ++ rest).map rank) (l.map rank) := by
  induction h generalizing l with
  | @stuck pending hstuck =>
    cases l with
    | nil => exact .inl hp.nil_eq
    | cons x l =>
      have hx : x ∈ pending := hp.mem_iff.1 (List.mem_cons_self ..)
      exact absurd (hl.ready_head.of_perm hp.symm) (hstuck x hx)
  | @take before v after front rest hv hb _ ih =>
    cases l with
    | nil => exact absurd hp.nil_eq (by simp)
    | cons x l =>
      have hx : x ∈ before ++ v :: after := hp.mem_iff.1 (List.mem_cons_self ..)
      have hxb : x ∉ before := fun hmem => hb x hmem (hl.ready_head.of_perm hp.symm)
      obtain ⟨hbefore, hva, hcross⟩ := List.pairwise_append.1 hrank
      rw [List.pairwise_cons] at hva
      -- nothing in front of the taken variable is ready: the other order starts with it or with a
      -- later one
      rcases List.mem_cons.1 ((List.mem_append.1 hx).resolve_left hxb) with rfl | hxa
      · have hp' : l.Perm (before ++ after) := (hp.trans List.perm_middle).cons_inv
        have hxl : x ∉ l := fun hmem => by
          have hxa := (List.mem_append.1 (hp'.mem_iff.1 hmem)).resolve_left hxb
          exact Nat.lt_irrefl _ (hva.1 x hxa)
        have hrank' : (before ++ after).Pairwise fun a b => rank a < rank b :=
          List.pairwise_append.2 ⟨hbefore, hva.2, fun a ha b hb =>
            hcross a ha b (List.mem_cons_of_mem _ hb)⟩
        rcases ih hrank' hp' (hl.tail hxl) with rfl | hlex
        · exact .inl rfl
        · exact .inr (.cons hlex)
      · exact .inr (.rel (hva.1 x hxa))

theorem eq_of_respects (h : Drains (DependsOn vars) pending front rest) (hn : pending.Nodup)
    (hr : Respects vars pending) : front ++ rest = pending := by
  induction h with
  | stuck => rfl
  | @take before v after front rest hv hb _ ih =>
    cases before with
    | nil =>
      rw [List.nil_append, List.nodup_cons] at hn
      rw [List.cons_append, ih hn.2 (hr.tail hn.1)]
      rfl
    | cons x before => exact absurd hr.ready_head (hb x (List.mem_cons_self ..))

end Drains

theorem pairwise_idxOf {l : List String} (h : l.Nodup) :
    l.Pairwise fun a b => l.idxOf a < l.idxOf b := by
  rw [List.pairwise_iff_getElem]
  intro i j hi hj hij
  rwa [h.idxOf_getElem i hi, h.idxOf_getElem j hj]

theorem dependsOn_arranged {keys : List String} (h : keys.Perm vars.keys) {v w : String} :
    DependsOn (vars.arranged keys) v w ↔ DependsOn vars v w := by
  rw [DependsOn, DependsOn, Record.keys_arranged fun _ => h.mem_iff.1,
    Record.get?_arranged_of_perm h, h.mem_iff]

/-- Where there is no cycle, the order is the smallest that puts dependencies first. It leaves
variables that are in order where they are, its own result among them. -/
theorem order_stable {vars : Record} (h : DistinctBases vars) :
    (Acyclic vars → Respects vars (order vars) ∧ ∀ l : List String, l.Perm vars.keys → Respects vars l →
      l = order vars ∨ List.Lex (· < ·) ((order vars).map vars.keys.idxOf) (l.map vars.keys.idxOf)) ∧
    (Respects vars vars.keys → order vars = vars.keys) ∧
    order (vars.arranged (order vars)) = order vars := by
  have hperm := order_perm vars
  refine ⟨fun hac => ?_, fun hr => ?_, ?_⟩
  · obtain ⟨front, rest, horder, hd⟩ := drains_order h
    rw [horder]
    exact ⟨fun v _ w _ hw => hd.dependency_lt (hac.not_entangled v) hw,
      fun l hp hl => hd.least (pairwise_idxOf h.nodup) hp hl⟩
  · obtain ⟨front, rest, horder, hd⟩ := drains_order h
    rw [horder, hd.eq_of_respects h.nodup hr]
  · exact order_eq_of_keys h (Record.keys_arranged fun _ => hperm.mem_iff.1) fun v w =>
      dependsOn_arranged hperm

/-- The third is declared behind the first, which mentions it, and stays behind the second. -/
def released : Record := [("c", .str "$d"), ("b", .null), ("d", .bool true), ("a", .str "$c.kind")]

theorem order_stable_released : DistinctBases released ∧ Respects released ["d", "c", "a", "b"] ∧
    order released = ["b", "d", "c", "a"] ∧ Respects released (order released) ∧
    List.Lex (· < ·) ((order released).map released.keys.idxOf)
      (["d", "c", "a", "b"].map released.keys.idxOf) ∧
    order (released.arranged (order released)) = order released := by
  have hd : DistinctBases released := by decide
  have hp : ["d", "c", "a", "b"].Perm released.keys := by decide
  have hr : Respects released ["d", "c", "a", "b"] := by decide
  obtain ⟨hleast, -, hagain⟩ := order_stable hd
  obtain ⟨hvalid, hleast⟩ := hleast (acyclic_of_respects hp hr)
  exact ⟨hd, hr, by decide, hvalid, (hleast _ hp hr).resolve_left (by decide), hagain⟩

end Worldbook.Variables
