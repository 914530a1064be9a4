import Mathlib.Logic.Relation
import ThreeAddress.Block.DeadCode
import ThreeAddress.Proofs.Block.Chains

/-!
# What is left of a block

A round removes the definitions that nothing reads.  What it leaves exposes no
variable, since whatever is read is not removed, and has the same links as before.
So no round fails after the first, and the rounds together leave exactly the
instructions from which links lead to one that is no assignment.
-/

namespace ThreeAddress
namespace DeadCode

open Block Chains

/-! ## Removing instructions -/

section Drop

variable {dead : List InstrId} {code : List Instruction}

theorem mem_drop_iff {instr : Instruction} :
    instr ∈ drop dead code ↔ instr ∈ code ∧ instr.id ∉ dead := by
  simp [drop]

theorem drop_split
    {pre post : List Instruction} {instr : Instruction}
    (hleft : instr.id ∉ dead) (h : code = pre ++ instr :: post) :
    drop dead code = drop dead pre ++ instr :: drop dead post := by
  rw [h, drop, List.filter_append, List.filter_cons_of_pos (by simpa using hleft)]
  rfl

/-- A place in what is left is a place in the whole. -/
theorem split_of_drop
    {pre post : List Instruction} {instr : Instruction}
    (h : drop dead code = pre ++ instr :: post) :
    ∃ pre' post', code = pre' ++ instr :: post' ∧ instr.id ∉ dead ∧
      drop dead pre' = pre ∧ drop dead post' = post := by
  obtain ⟨first, second, rfl, hfirst, hsecond⟩ := List.filter_eq_append_iff.mp h
  obtain ⟨gone, rest, rfl, hgone, hleft, hrest⟩ :=
    List.filter_eq_cons_iff.mp hsecond
  refine ⟨first ++ gone, rest, by simp, by simpa using hleft, ?_, hrest⟩
  rw [drop, List.filter_append, hfirst, List.filter_eq_nil_iff.mpr hgone,
    List.append_nil]

end Drop

/-! ## One round -/

/-- Some chain of reads leads from an instruction to one that is no
assignment. -/
def Serves (code : List Instruction) (instr : Instruction) : Prop :=
  ∃ u, Relation.ReflTransGen (fun d u => ∃ v, Feeds code d v u) instr u ∧
    u.defined? = none

section Round

variable {code : List Instruction} {c : Chains}
  (hids : (code.map Instruction.id).Nodup) (h : ofInstructions code = .ok c)
include hids h

/-- No read becomes undefined. -/
theorem not_exposed_drop (v : VarId) : ¬ Exposed v (drop c.dead code) := by
  intro hexposed
  obtain ⟨pre, u, post, hsplit, hu, hpre⟩ := exposed_iff.mp hexposed
  obtain ⟨pre, post, hwhole, -, rfl, -⟩ := split_of_drop hsplit
  obtain ⟨d, hd, hfeeds⟩ := exists_feeds_of_used
    ((ofInstructions_eq_ok_iff.mp h).1 v) hwhole hu
  exact hpre d (mem_drop_iff.mpr ⟨hd, hfeeds.not_mem_dead hids h⟩)
    hfeeds.defined?_eq

/-- The links between the instructions that are left do not change. -/
theorem feeds_drop_iff {d u : Instruction} {v : VarId} :
    Feeds (drop c.dead code) d v u ↔ Feeds code d v u ∧ u.id ∉ c.dead := by
  constructor
  · rintro ⟨pre, mid, post, hsplit, hd, hu, hmid⟩
    obtain ⟨pre, rest, hwhole, -, -, hrest⟩ := split_of_drop hsplit
    obtain ⟨mid, post, rfl, hleft, rfl, -⟩ := split_of_drop hrest
    refine ⟨⟨pre, mid, post, hwhole, hd, hu, ?_⟩, hleft⟩
    -- the last definition in between would be read, hence be left
    by_contra hbetween
    simp only [not_forall, not_not] at hbetween
    obtain ⟨k, hk, hdefined⟩ := hbetween
    obtain ⟨front, last, back, rfl, hlast, hback⟩ :=
      exists_last_definition ⟨k, hk, hdefined⟩
    have hfeeds : Feeds code last v u :=
      ⟨pre ++ d :: front, back, post, by simp [hwhole], hlast, hu, hback⟩
    refine hmid last (mem_drop_iff.mpr ⟨by simp, ?_⟩) hlast
    exact hfeeds.not_mem_dead hids h
  · rintro ⟨hfeeds, hleft⟩
    have hstays := hfeeds.not_mem_dead hids h
    obtain ⟨pre, mid, post, hsplit, hd, hu, hmid⟩ := hfeeds
    refine ⟨drop c.dead pre, drop c.dead mid, drop c.dead post, ?_, hd, hu, ?_⟩
    · rw [drop_split hstays hsplit, drop_split hleft rfl]
    · intro k hk
      exact hmid k (mem_drop_iff.mp hk).1

theorem Serves.not_mem_dead
    {instr : Instruction} (hmem : instr ∈ code) (hserves : Serves code instr) :
    instr.id ∉ c.dead := by
  obtain ⟨u, hpath, hu⟩ := hserves
  cases hpath using Relation.ReflTransGen.head_induction_on with
  | refl => exact not_mem_dead_of_defined?_eq_none hids h hmem hu
  | head hstep _ _ =>
      obtain ⟨v, hfeeds⟩ := hstep
      exact hfeeds.not_mem_dead hids h

/-- A chain of reads goes through instructions that are left. -/
theorem serves_drop_iff {instr : Instruction} :
    Serves (drop c.dead code) instr ↔ Serves code instr := by
  constructor
  · rintro ⟨u, hpath, hu⟩
    refine ⟨u, Relation.ReflTransGen.mono ?_ _ _ hpath, hu⟩
    rintro d k ⟨v, hfeeds⟩
    exact ⟨v, ((feeds_drop_iff hids h).mp hfeeds).1⟩
  · rintro ⟨u, hpath, hu⟩
    refine ⟨u, ?_, hu⟩
    induction hpath using Relation.ReflTransGen.head_induction_on with
    | refl => exact .refl
    | head hstep hrest ih =>
        obtain ⟨v, hfeeds⟩ := hstep
        have hleft := Serves.not_mem_dead hids h hfeeds.mem.2 ⟨u, hrest, hu⟩
        exact ih.head ⟨v, (feeds_drop_iff hids h).mpr ⟨hfeeds, hleft⟩⟩

omit hids in
/-- If nothing is dead, a chain of reads goes on until it comes to an instruction
that is no assignment. -/
theorem serves_of_dead_eq_nil
    (hdead : c.dead = []) {pre post : List Instruction} {instr : Instruction}
    (hsplit : code = pre ++ instr :: post) :
    Serves code instr := by
  -- every link leads closer to the end of the code
  induction hlength : post.length using Nat.strong_induction_on
    generalizing pre instr post with
  | _ n ih =>
      cases hdefined : instr.defined? with
      | none => exact ⟨instr, .refl, hdefined⟩
      | some v =>
          have hleft : instr.id ∉ c.dead := by simp [hdead]
          have hexposed := exposed_of_not_mem_dead h hsplit hdefined hleft
          obtain ⟨mid, u, rest, rfl, hu, hmid⟩ := exposed_iff.mp hexposed
          have hlater : code = (pre ++ instr :: mid) ++ u :: rest := by
            simp [hsplit]
          have hlt : rest.length < n := by
            rw [← hlength, List.length_append, List.length_cons]
            omega
          obtain ⟨last, hpath, hlast⟩ := ih _ hlt hlater rfl
          exact ⟨last, hpath.head
            ⟨v, pre, mid, rest, hsplit, hdefined, hu, hmid⟩, hlast⟩

end Round

/-! ## All rounds -/

section Rounds

variable {code : List Instruction} {c : Chains}

theorem settle_of_dead_eq_nil
    (h : ofInstructions code = .ok c) (hdead : c.dead = []) :
    settle code = .ok code := by
  rw [settle]
  split
  · next heq => rw [h] at heq; contradiction
  · next found heq =>
      obtain rfl := Except.ok.inj (h.symm.trans heq)
      exact dif_pos hdead

theorem settle_of_dead_ne_nil
    (h : ofInstructions code = .ok c) (hdead : c.dead ≠ []) :
    settle code = settle (drop c.dead code) := by
  rw [settle]
  split
  · next heq => rw [h] at heq; contradiction
  · next found heq =>
      obtain rfl := Except.ok.inj (h.symm.trans heq)
      exact dif_neg hdead

theorem settle_eq_error {e : Error} (h : ofInstructions code = .error e) :
    settle code = .error e := by
  rw [settle]
  split
  · next found heq =>
      obtain rfl := Except.error.inj (h.symm.trans heq)
      rfl
  · next heq => rw [h] at heq; contradiction

end Rounds

/-- What the rounds leave of the instructions: those that serve, in order.  A
further round changes nothing. -/
structure Leaves (code rest : List Instruction) : Prop where
  sublist : rest.Sublist code
  mem_iff : ∀ {instr}, instr ∈ rest ↔ instr ∈ code ∧ Serves code instr
  settle_eq : settle rest = .ok rest

theorem exists_settle
    {code : List Instruction} (hids : (code.map Instruction.id).Nodup)
    (hclosed : ∀ v, ¬ Exposed v code) :
    ∃ rest, settle code = .ok rest ∧ Leaves code rest := by
  induction hlength : code.length using Nat.strong_induction_on
    generalizing code with
  | _ n ih =>
      have h : ofInstructions code = .ok ⟨entries code⟩ :=
        ofInstructions_eq_ok_iff.mpr ⟨hclosed, rfl⟩
      by_cases hdead : (⟨entries code⟩ : Chains).dead = []
      · have hsettle := settle_of_dead_eq_nil h hdead
        refine ⟨code, hsettle, List.Sublist.refl _, ?_, hsettle⟩
        intro instr
        refine (and_iff_left_of_imp fun hmem => ?_).symm
        obtain ⟨pre, post, hsplit⟩ := List.append_of_mem hmem
        exact serves_of_dead_eq_nil h hdead hsplit
      · have hsublist : (drop (⟨entries code⟩ : Chains).dead code).Sublist code :=
          List.filter_sublist
        have hlt : (drop (⟨entries code⟩ : Chains).dead code).length < n := by
          obtain ⟨id, hid⟩ := List.exists_mem_of_ne_nil _ hdead
          obtain ⟨instr, hinstr, rfl⟩ := exists_mem_of_mem_dead h hid
          rw [← hlength]
          exact length_drop_lt hinstr hid
        obtain ⟨rest, hsettle, hleaves⟩ := ih _ hlt
          ((hsublist.map _).nodup hids) (not_exposed_drop hids h) rfl
        refine ⟨rest, (settle_of_dead_ne_nil h hdead).trans hsettle,
          hleaves.sublist.trans hsublist, ?_, hleaves.settle_eq⟩
        intro instr
        rw [hleaves.mem_iff, mem_drop_iff, serves_drop_iff hids h, and_assoc]
        refine and_congr_right fun hmem => and_iff_right_of_imp ?_
        exact Serves.not_mem_dead hids h hmem

/-! ## Blocks -/

end DeadCode

/-- The program has this instruction, and it is no assignment. -/
def Program.Acts (p : Program) (id : InstrId) : Prop :=
  ∃ instr, p.get? id = some instr ∧ instr.defined? = none

/-- Instruction `u` reads the definition that instruction `d` makes. -/
def Chains.Links (c : Chains) (d u : InstrId) : Prop :=
  ∃ use ∈ c.uses, use.definition = d ∧ use.instr = u

/-- An instruction is no assignment, or one that is none reads its definition,
directly or through a chain of links. -/
def Chains.Useful (c : Chains) (p : Program) (id : InstrId) : Prop :=
  p.Acts id ∨ ∃ u, Relation.TransGen c.Links id u ∧ p.Acts u

namespace DeadCode

open Block Chains

section Useful

variable {code : List Instruction} {c : Chains} {p : Program}
  (hids : (code.map Instruction.id).Nodup) (h : ofInstructions code = .ok c)

include h in
theorem links_iff {x y : InstrId} :
    c.Links x y ↔ ∃ d u v, Feeds code d v u ∧ d.id = x ∧ u.id = y := by
  simp only [Links, mem_uses_iff h]
  constructor
  · rintro ⟨use, ⟨d, u, hfeeds, hd, hu⟩, rfl, rfl⟩
    exact ⟨d, u, use.var, hfeeds, hd, hu⟩
  · rintro ⟨d, u, v, hfeeds, rfl, rfl⟩
    exact ⟨⟨u.id, v, d.id⟩, ⟨d, u, hfeeds, rfl, rfl⟩, rfl, rfl⟩

include hids h in
/-- Links between handles are links between instructions. -/
theorem transGen_links_iff
    {instr : Instruction} (hmem : instr ∈ code) {y : InstrId} :
    Relation.TransGen c.Links instr.id y ↔
      ∃ u ∈ code, u.id = y ∧
        Relation.TransGen (fun d u => ∃ v, Feeds code d v u) instr u := by
  have hstep : ∀ {d : Instruction} {y : InstrId}, d ∈ code → c.Links d.id y →
      ∃ u ∈ code, u.id = y ∧ ∃ v, Feeds code d v u := by
    intro d y hd hlinks
    obtain ⟨d', u, v, hfeeds, hid, rfl⟩ := (links_iff h).mp hlinks
    obtain rfl := List.inj_on_of_nodup_map hids hfeeds.mem.1 hd hid
    exact ⟨u, hfeeds.mem.2, rfl, v, hfeeds⟩
  constructor
  · intro hpath
    induction hpath with
    | single hlinks =>
        obtain ⟨u, hu, hid, hfeeds⟩ := hstep hmem hlinks
        exact ⟨u, hu, hid, .single hfeeds⟩
    | tail _ hlinks ih =>
        obtain ⟨d, hd, rfl, hbefore⟩ := ih
        obtain ⟨u, hu, hid, hfeeds⟩ := hstep hd hlinks
        exact ⟨u, hu, hid, hbefore.tail hfeeds⟩
  · rintro ⟨u, -, rfl, hpath⟩
    refine hpath.lift Instruction.id ?_
    rintro d u ⟨v, hfeeds⟩
    exact (links_iff h).mpr ⟨d, u, v, hfeeds, rfl, rfl⟩

include hids h in
/-- An instruction is useful if it serves. -/
theorem useful_iff
    (hget : ∀ instr ∈ code, p.get? instr.id = some instr)
    {instr : Instruction} (hmem : instr ∈ code) :
    c.Useful p instr.id ↔ Serves code instr := by
  have hacts : ∀ {u : Instruction}, u ∈ code →
      (p.Acts u.id ↔ u.defined? = none) := by
    intro u hu
    simp [Program.Acts, hget u hu]
  simp only [Useful, Serves, hacts hmem, transGen_links_iff hids h hmem,
    Relation.reflTransGen_iff_eq_or_transGen]
  constructor
  · rintro (hnone | ⟨_, ⟨u, hu, rfl, hpath⟩, hacting⟩)
    · exact ⟨instr, Or.inl rfl, hnone⟩
    · exact ⟨u, Or.inr hpath, (hacts hu).mp hacting⟩
  · rintro ⟨u, rfl | hpath, hnone⟩
    · exact Or.inl hnone
    · have hu : u ∈ code := by
        obtain ⟨d, -, v, hfeeds⟩ := Relation.TransGen.tail'_iff.mp hpath
        exact hfeeds.mem.2
      exact Or.inr ⟨u.id, ⟨u, hu, rfl, hpath⟩, (hacts hu).mpr hnone⟩

end Useful

/-- A block has been reduced to its useful instructions.  Everything else of it is
as before, and cannot be reduced further. -/
structure Reduces (p : Program) (c : Chains) (b b' : Block) : Prop where
  id_eq : b'.id = b.id
  predecessors_eq : b'.predecessors = b.predecessors
  successors_eq : b'.successors = b.successors
  sublist : b'.instrs.Sublist b.instrs
  mem_iff : ∀ {id}, id ∈ b'.instrs ↔ id ∈ b.instrs ∧ c.Useful p id
  eliminate_eq : eliminate p b' = .ok b'

section Eliminate

variable {p : Program} {b : Block} (hmem : ∀ id ∈ b.instrs, id ∈ p.ids)
include hmem

theorem eliminate_eq_bind :
    eliminate p b = settle (b.instrs.filterMap p.get?) >>= fun live =>
      .ok { b with instrs := live.map Instruction.id } := by
  rw [eliminate, resolve_eq_ok hmem]
  rfl

theorem eliminate_of_settle
    {rest : List Instruction}
    (h : settle (b.instrs.filterMap p.get?) = .ok rest) :
    eliminate p b = .ok { b with instrs := rest.map Instruction.id } := by
  rw [eliminate_eq_bind hmem, h]
  rfl

theorem eliminate_eq_error {e : Error} (h : Chains.ofBlock p b = .error e) :
    eliminate p b = .error e := by
  rw [ofBlock_eq hmem] at h
  rw [eliminate_eq_bind hmem, settle_eq_error h]
  rfl

theorem exists_reduces
    (hnodup : b.instrs.Nodup) {c : Chains} (hc : Chains.ofBlock p b = .ok c) :
    ∃ b', eliminate p b = .ok b' ∧ Reduces p c b b' := by
  have hcode := Program.map_id_filterMap_get? hmem
  rw [ofBlock_eq hmem] at hc
  rw [← hcode] at hnodup
  obtain ⟨rest, hsettle, hleaves⟩ := exists_settle hnodup
    (ofInstructions_eq_ok_iff.mp hc).1
  have hsublist : (rest.map Instruction.id).Sublist b.instrs := by
    rw [← hcode]
    exact hleaves.sublist.map _
  have hrest : (rest.map Instruction.id).filterMap p.get? = rest :=
    Program.filterMap_get?_map_id_of_subset hleaves.sublist.subset
  refine ⟨_, eliminate_of_settle hmem hsettle, rfl, rfl, rfl, hsublist, ?_, ?_⟩
  · intro id
    rw [← hcode, List.mem_map, List.mem_map]
    constructor
    · rintro ⟨instr, hinstr, rfl⟩
      obtain ⟨hinstr, hserves⟩ := hleaves.mem_iff.mp hinstr
      exact ⟨⟨instr, hinstr, rfl⟩, (useful_iff hnodup hc
        (fun _ => Program.get?_of_mem_filterMap) hinstr).mpr hserves⟩
    · rintro ⟨⟨instr, hinstr, rfl⟩, huseful⟩
      refine ⟨instr, hleaves.mem_iff.mpr ⟨hinstr, ?_⟩, rfl⟩
      exact (useful_iff hnodup hc
        (fun _ => Program.get?_of_mem_filterMap) hinstr).mp huseful
  · rw [eliminate_of_settle (fun id hid => hmem id (hsublist.subset hid))]
    rw [hrest]
    exact hleaves.settle_eq

end Eliminate

/-- For a block whose instructions are in the program and distinct, the rounds
fail only if the block has no chains.  Otherwise they reduce the block to its
useful instructions. -/
theorem eliminate_keeps_useful
    {p : Program} {b : Block} (hmem : ∀ id ∈ b.instrs, id ∈ p.ids)
    (hnodup : b.instrs.Nodup) :
    ((∃ b', eliminate p b = .ok b') ↔ ∃ c, Chains.ofBlock p b = .ok c) ∧
      ∀ c, Chains.ofBlock p b = .ok c →
        ∃ b', eliminate p b = .ok b' ∧ Reduces p c b b' := by
  refine ⟨⟨?_, ?_⟩, fun c hc => exists_reduces hmem hnodup hc⟩
  · rintro ⟨b', hb'⟩
    cases hc : Chains.ofBlock p b with
    | ok c => exact ⟨c, rfl⟩
    | error e =>
        rw [eliminate_eq_error hmem hc] at hb'
        contradiction
  · rintro ⟨c, hc⟩
    obtain ⟨b', hb', -⟩ := exists_reduces hmem hnodup hc
    exact ⟨b', hb'⟩

/-- Computes `x` from `a`, and then both anew.  Only the new `x` is used. -/
def overwriting : Program where
  instrs := #[
    ⟨⟨0⟩, false, .assign ⟨0⟩ none .copy (.const 5)⟩,
    ⟨⟨1⟩, false, .assign ⟨1⟩ none .copy (.var ⟨0⟩)⟩,
    ⟨⟨2⟩, false, .assign ⟨0⟩ none .copy (.const 4)⟩,
    ⟨⟨3⟩, false, .assign ⟨1⟩ none .copy (.const 3)⟩,
    ⟨⟨4⟩, false, .assign ⟨2⟩ (some (.var ⟨1⟩)) .plus (.const 5)⟩,
    ⟨⟨5⟩, false, .print (.var ⟨2⟩)⟩]
  names := #["a", "x", "y"]

/-- The first `a` is removed in the second round only, once the first `x` has
gone. -/
theorem eliminate_keeps_useful_overwriting :
    ∃ c, Chains.ofBlock overwriting (.ofInstrs 0 overwriting.ids) = .ok c ∧
      eliminate overwriting (.ofInstrs 0 overwriting.ids) =
        .ok (.ofInstrs 0 [⟨3⟩, ⟨4⟩, ⟨5⟩]) ∧
      c.Useful overwriting ⟨3⟩ ∧ ¬ c.Useful overwriting ⟨0⟩ := by
  have hrun : eliminate overwriting (.ofInstrs 0 overwriting.ids) =
      .ok (.ofInstrs 0 [⟨3⟩, ⟨4⟩, ⟨5⟩]) := by
    decide +kernel
  obtain ⟨hiff, hall⟩ := eliminate_keeps_useful (p := overwriting)
    (b := .ofInstrs 0 overwriting.ids) (fun _ hid => hid) (by decide)
  obtain ⟨c, hc⟩ := hiff.mp ⟨_, hrun⟩
  obtain ⟨b', hb', hreduces⟩ := hall c hc
  obtain rfl := Except.ok.inj (hrun.symm.trans hb')
  refine ⟨c, hc, hrun, ?_, ?_⟩
  · exact (hreduces.mem_iff.mp (by decide)).2
  · intro huseful
    have hmem := hreduces.mem_iff.mpr ⟨by decide, huseful⟩
    exact absurd hmem (by decide)

end DeadCode
end ThreeAddress
