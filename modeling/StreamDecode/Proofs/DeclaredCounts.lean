import StreamDecode.Proofs.OrderedContainers
import StreamDecode.Proofs.ReadingContainers
import StreamDecode.Proofs.TreePasses

set_option autoImplicit false

/-! # Declared counts are bounded by the input

A count in the input says how many elements follow, up to `2 ^ 64 - 1`, and nothing says that they
do. The loops take it at its word and yet cannot be driven past the input: in complete mode an
element that asks for a byte too many fails, and with it the loop.

Every collection is a counted repetition whose result is accepted or not and changed
(`Collects.eq_mapIf`), so what holds of the repetition (`Composed.repeat_finishes`) holds of all of
them. A tree needs no element that consumes, because it has the counts of its nodes to consume. -/

namespace StreamDecode

variable {α γ δ : Type}

/-- The decoder is that of a collection of the elements, or of the pairs, that are decoded so. -/
inductive Collects : {α γ : Type} → Decoder Bytes α → Decoder Bytes γ → Prop where
  | list {α : Type} {element : Decoder Bytes α} : Collects element element.listOf
  | array {α : Type} {element : Decoder Bytes α} : Collects element element.arrayOf
  | map {κ ν : Type} [LT κ] [DecidableLT κ] {key : Decoder Bytes κ} {value : Decoder Bytes ν} :
      Collects (key.pairOf value) (key.mapOf value)
  | set {κ : Type} [LT κ] [DecidableLT κ] {element : Decoder Bytes κ} :
      Collects element element.setOf
  | checkedMap {κ ν : Type} [LT κ] [DecidableLT κ] {key : Decoder Bytes κ}
      {value : Decoder Bytes ν} : Collects (key.pairOf value) (key.checkedMapOf value)
  | checkedSet {κ : Type} [LT κ] [DecidableLT κ] {element : Decoder Bytes κ} :
      Collects element element.checkedSetOf

theorem Collects.eq_mapIf {element : Decoder Bytes α} {d : Decoder Bytes δ}
    (h : Collects element d) :
    ∃ (γ : Type) (init : γ) (push : γ → α → γ) (accepts : γ → Bool) (f : γ → δ) (cause : Cause),
      d = (element.counted init push).mapIf accepts f cause := by
  cases h with
  | list => exact ⟨_, _, _, fun _ => true, _, .unorderedKeys, rfl⟩
  | array => exact ⟨_, _, _, fun _ => true, id, .unorderedKeys, rfl⟩
  | map => exact ⟨_, _, _, fun _ => true, id, .unorderedKeys, rfl⟩
  | set => exact ⟨_, _, _, fun _ => true, id, .unorderedKeys, rfl⟩
  | @checkedMap κ ν =>
      exact ⟨_, _, _, fun entries : List (κ × ν) => ascends (entries.reverse.map Prod.fst),
        fun entries => .ofList entries.reverse, _, rfl⟩
  | checkedSet =>
      exact ⟨_, _, _, fun members : List α => ascends members.reverse,
        fun members => SortedSet.ofList members.reverse, _, rfl⟩

/-- Behind a count the decoder runs the loop of a counted repetition, in which the element is run as
    often as said at most, and goes by its ending. -/
def Decoder.RunsAtMost (d : Decoder Bytes δ) (element : Decoder Bytes α) (bound count : Nat)
    (c behind : Cursor Bytes) : Prop :=
  ∃ (γ : Type) (init : γ) (push : γ → α → γ) (accepts : γ → Bool) (f : γ → δ) (cause : Cause)
    (runs : Nat) (ending : Ending Bytes γ),
    runs ≤ bound ∧ (element.repeatPasses push).Finishes ⟨count, init, behind⟩ runs ending ∧
      d.outcome c = .answer (ending.mapIf accepts f cause)

namespace Composed

variable {access : Access} {element : Decoder Bytes α}

/-- A collection runs its element no more often than its count says, nor more than once beyond the
    bytes that follow; and it fails if there are less bytes than elements. -/
theorem collection_finishes (h : Composed access element) (haccess : access ≠ .rewrite)
    (hconsumes : element.Consumes) {d : Decoder Bytes δ} (hd : Collects element d)
    {c : Cursor Bytes} (hmode : c.mode = .complete) {count : UInt64} {p rest : Bytes}
    (hcount : Wire.WordOf 8 .big count.toNat p) (hinput : c.input = p ++ rest) :
    d.RunsAtMost element (min count.toNat (rest.length + 1)) count.toNat c
        { c with input := rest } ∧
      (rest.length < count.toNat →
        ∃ here failure, d.outcome c = .answer (.failed here failure)) := by
  obtain ⟨γ, init, push, accepts, f, cause, rfl⟩ := hd.eq_mapIf
  have hword : Decoder.word64be.outcome c = .answer (.reached { c with input := rest } count) :=
    Decoder.Reads.word64be.reads hmode (Nat.lt_succ_self _) hcount hinput
  have hmode' : ({ c with input := rest } : Cursor Bytes).mode = .complete := hmode
  obtain ⟨runs, ending, hruns, hfinishes, hfold, hfails⟩ :=
    h.repeat_finishes haccess hconsumes push count.toNat init hmode'
  have hcounted : (element.counted init push).outcome c = .answer ending := by
    rw [Decoder.counted, Decoder.outcome_bind Decoder.Linear.word64be, hword]
    exact hfold
  have houtcome : ((element.counted init push).mapIf accepts f cause).outcome c =
      .answer (ending.mapIf accepts f cause) := by
    rw [Decoder.outcome_mapIf (h.counted init push).linear, hcounted]
    rfl
  refine ⟨⟨γ, init, push, accepts, f, cause, runs, ending, hruns, hfinishes, houtcome⟩,
    fun hless => ?_⟩
  obtain ⟨here, failure, rfl⟩ := hfails hless
  exact ⟨here, failure, houtcome⟩

/-- Declared counts cannot drive a loop past its input. Over `s` bytes of complete input the loop of
    trees is left after at most `s / 8 + 1` elements, a tree has at most `s / 8` nodes, and wherever
    the loop gets, its stack is in order and no pass breaks; and as long as there are less than
    `2 ^ 64` bytes, the decoder of trees ends as the loop does. A collection of elements that consume
    at least a byte each, on a count followed by `t` bytes, runs the element at most as often as the
    count says and at most `t + 1` times, and fails if the count is above `t`. -/
theorem declared_counts (h : Composed access element) (haccess : access ≠ .rewrite)
    {c : Cursor Bytes} (hmode : c.mode = .complete) :
    (∃ runs ending, runs ≤ c.input.length / 8 + 1 ∧
      element.treePasses.Finishes (.start c) runs ending ∧
      (c.input.length < 2 ^ 64 → element.treeOf.outcome c = .answer ending) ∧
      ∀ here t, ending = .reached here t → t.extent.nodes ≤ c.input.length / 8) ∧
    (∀ runs state, element.treePasses.Reaches (.start c) runs state →
      runs ≤ c.input.length / 8 + 1 ∧ state.Sound ∧
        element.treePasses.pass state ≠ .answer .broken) ∧
    (element.Consumes → ∀ (δ : Type) (d : Decoder Bytes δ), Collects element d →
      ∀ (count : UInt64) (p rest : Bytes), Wire.WordOf 8 .big count.toNat p → c.input = p ++ rest →
        d.RunsAtMost element (min count.toNat (rest.length + 1)) count.toNat c
            { c with input := rest } ∧
          (rest.length < count.toNat →
            ∃ here failure, d.outcome c = .answer (.failed here failure))) := by
  have hempty : ∀ node ∈ ([] : List (OpenNode α)), node.missing ≠ 0 := nofun
  have henough : c.input.length < 8 * (c.input.length + 1) := by omega
  obtain ⟨runs, ending, hruns, hfinishes, -⟩ := h.tree_finishes haccess hmode hempty henough
  refine ⟨⟨runs, ending, hruns, hfinishes, fun hsize => ?_, ?_⟩, fun reached state hreaches => ?_,
    fun hconsumes δ d hd count p rest hcount =>
      h.collection_finishes haccess hconsumes hd hmode hcount⟩
  · have hlimit : c.input.length < 8 * Decoder.nodeLimit := hsize
    obtain ⟨runs', ending', -, hfinishes', htree⟩ := h.tree_finishes haccess hmode hempty hlimit
    obtain ⟨-, rfl⟩ := hfinishes.unique hfinishes'
    exact htree
  · rintro here t rfl
    exact h.tree_nodes haccess hmode hfinishes
  · obtain ⟨later, rfl, -⟩ := hreaches.finishes hfinishes
    obtain ⟨hsound, hpass⟩ := Decoder.sound_of_reaches hreaches
    exact ⟨by omega, hsound, hpass⟩

end Composed

namespace Decoder

theorem consumes_getBytes {n : Nat} (hn : 0 < n) : (getBytes n : Decoder Bytes Bytes).Consumes := by
  intro c here value _ hreached
  have hsucceeds : (getBytes n).SucceedsAt c [] here value := by
    rw [(Linear.getBytes n).succeedsAt_iff, hreached, Step.after_nil]
  have hgiven : here.input.length + n ≤ c.input.length := hsucceeds.getBytes_given
  omega

theorem Consumes.map {d : Decoder Bytes α} (hd : d.Linear) (h : d.Consumes) (f : α → γ) :
    (d.map f).Consumes := by
  intro c here value hmode hreached
  rw [outcome_map hd] at hreached
  obtain ⟨ending, hending, hmap⟩ := Step.map_eq_answer hreached
  cases ending with
  | failed c' failure => cases hmap
  | reached c' value =>
      cases hmap
      exact h c _ _ hmode hending

end Decoder

open Decoder in
/-- Eleven bytes that begin with the greatest count there is. Read as a set they have three of the
    members that were announced; read as a tree they have a root with about as many subtrees, of
    which the first one is cut off behind its root. -/
theorem bytes_declared_counts :
    let c : Cursor Bytes := .start .complete [255, 255, 255, 255, 255, 255, 255, 255, 1, 2, 3]
    (∃ runs ending, runs ≤ 2 ∧ (treePasses word8).Finishes (.start c) runs ending ∧
      (treeOf word8).outcome c = .answer ending) ∧
    (Decoder.setOf word8).RunsAtMost word8 4 (2 ^ 64 - 1) c { c with input := [1, 2, 3] } ∧
    ∃ here failure, (Decoder.setOf word8).outcome c = .answer (.failed here failure) := by
  intro c
  have hword : Composed .stream (word8 : Decoder Bytes UInt8) := .map _ (.word 1 .big)
  have hconsumes : (word8 : Decoder Bytes UInt8).Consumes :=
    ((consumes_getBytes Nat.one_pos).map (Linear.getBytes 1) _).map ((Linear.getBytes 1).map _) _
  obtain ⟨⟨runs, ending, hruns, hfinishes, htree, -⟩, -, hcollections⟩ :=
    hword.declared_counts (by decide) (c := c) rfl
  have hcount : Wire.WordOf 8 .big (18446744073709551615 : UInt64).toNat
      [255, 255, 255, 255, 255, 255, 255, 255] := ⟨rfl, by decide⟩
  obtain ⟨hatMost, hfails⟩ := hcollections hconsumes _ _ .set _ _ [1, 2, 3] hcount rfl
  exact ⟨⟨runs, ending, hruns.trans (by decide), hfinishes, htree (by decide)⟩, hatMost,
    hfails (by decide)⟩

end StreamDecode
