import Mathlib.Logic.Equiv.Defs
import StreamDecode.Proofs.ReadingTrees
import StreamDecode.Result

set_option autoImplicit false

/-! # The format of a decoder

A `Format` is an expression for what is written, built from words, bytes and containers. It has a
decoder and a wire format, each made of those of its parts, and the decoder reads what the format
writes (`Format.reads`): over a whole input it accepts exactly the encodings. -/

namespace StreamDecode

/-- What is written, and the type of the values that are read. -/
inductive Format : Type → Type 1 where
  | word8 : Format UInt8
  | word16 (order : ByteOrder) : Format UInt16
  | word32 (order : ByteOrder) : Format UInt32
  | word64 (order : ByteOrder) : Format UInt64
  /-- A fixed number of bytes. -/
  | bytes (count : Nat) : Format Bytes
  | pair {α γ : Type} (first : Format α) (second : Format γ) : Format (α × γ)
  | list {α : Type} (element : Format α) : Format (List α)
  | array {α : Type} (element : Format α) : Format (Array α)
  | option {α : Type} (element : Format α) : Format (Option α)
  | sum {α γ : Type} (left : Format α) (right : Format γ) : Format (α ⊕ γ)
  | tree {α : Type} (element : Format α) : Format (Tree α)
  | map {κ ν : Type} [LT κ] [DecidableLT κ] [IsStrictWeakOrder κ (· < ·)] (key : Format κ)
      (value : Format ν) : Format (SortedMap κ ν)
  | set {κ : Type} [LT κ] [DecidableLT κ] [IsStrictWeakOrder κ (· < ·)] (element : Format κ) :
      Format (SortedSet κ)
  | checkedMap {κ ν : Type} [LT κ] [DecidableLT κ] [IsStrictWeakOrder κ (· < ·)] (key : Format κ)
      (value : Format ν) : Format (SortedMap κ ν)
  | checkedSet {κ : Type} [LT κ] [DecidableLT κ] [IsStrictWeakOrder κ (· < ·)]
      (element : Format κ) : Format (SortedSet κ)
  | indexedArray {t : IndexType} {α : Type} (index : Format t.Index) (element : Format α) :
      Format (IndexedArray t α)
  /-- The same bytes, for values of a type with the same values. -/
  | recast {α γ : Type} (values : α ≃ γ) (format : Format α) : Format γ

namespace Format

/-- The decoder of a format. -/
def decoder : {α : Type} → Format α → Decoder Bytes α
  | _, word8 => Decoder.word8
  | _, word16 .big => Decoder.word16be
  | _, word16 .little => Decoder.word16le
  | _, word32 .big => Decoder.word32be
  | _, word32 .little => Decoder.word32le
  | _, word64 .big => Decoder.word64be
  | _, word64 .little => Decoder.word64le
  | _, bytes count => Decoder.getBytes count
  | _, pair first second => Decoder.pairOf first.decoder second.decoder
  | _, list element => Decoder.listOf element.decoder
  | _, array element => Decoder.arrayOf element.decoder
  | _, option element => Decoder.optionOf element.decoder
  | _, sum left right => Decoder.sumOf left.decoder right.decoder
  | _, tree element => Decoder.treeOf element.decoder
  | _, map key value => Decoder.mapOf key.decoder value.decoder
  | _, set element => Decoder.setOf element.decoder
  | _, checkedMap key value => Decoder.checkedMapOf key.decoder value.decoder
  | _, checkedSet element => Decoder.checkedSetOf element.decoder
  | _, indexedArray index element => Decoder.indexedArrayOf index.decoder element.decoder
  | _, recast values format => format.decoder.map values

/-- The encodings of a value in a format. -/
def Encodes : {α : Type} → Format α → Wire α
  | _, word8 => fun v p => p = [v]
  | _, word16 order => fun v => Wire.WordOf 2 order v.toNat
  | _, word32 order => fun v => Wire.WordOf 4 order v.toNat
  | _, word64 order => fun v => Wire.WordOf 8 order v.toNat
  | _, bytes count => fun v p => p.length = count ∧ v = p
  | _, pair first second => .PairOf first.Encodes second.Encodes
  | _, list element => .ListOf element.Encodes
  | _, array element => .ArrayOf element.Encodes
  | _, option element => .OptionOf element.Encodes
  | _, sum left right => .SumOf left.Encodes right.Encodes
  | _, tree element => .TreeOf element.Encodes
  | _, map key value => .MapOf key.Encodes value.Encodes
  | _, set element => .SetOf element.Encodes
  | _, checkedMap key value => .CheckedMapOf key.Encodes value.Encodes
  | _, checkedSet element => .CheckedSetOf element.Encodes
  | _, indexedArray index element => .IndexedArrayOf index.Encodes element.Encodes
  | _, recast values format => fun v => format.Encodes (values.symm v)

/-- The decoder of a format reads what the format writes. -/
theorem reads {α : Type} (f : Format α) : f.decoder.Reads UInt64.size f.Encodes := by
  induction f with
  | word8 => exact .word8
  | word16 order =>
      have hreads := Decoder.Reads.narrow (n := UInt64.size) (m := 2) (by decide) order
        (f := UInt64.toUInt16) (fun u hu => ?_) fun a b => UInt16.toNat_inj.1
      · cases order <;> exact hreads
      · rw [UInt64.toNat_toUInt16]
        exact Nat.mod_eq_of_lt hu
  | word32 order =>
      have hreads := Decoder.Reads.narrow (n := UInt64.size) (m := 4) (by decide) order
        (f := UInt64.toUInt32) (fun u hu => ?_) fun a b => UInt32.toNat_inj.1
      · cases order <;> exact hreads
      · rw [UInt64.toNat_toUInt32]
        exact Nat.mod_eq_of_lt hu
  | word64 order =>
      have hreads := Decoder.Reads.word (n := UInt64.size) (m := 8) (by decide) order
      cases order <;> exact hreads
  | bytes count => exact .getBytes count
  | pair first second ihf ihs => exact ihf.pairOf ihs
  | list element ih => exact ih.listOf
  | array element ih => exact ih.arrayOf
  | option element ih => exact ih.optionOf
  | sum left right ihl ihr => exact ihl.sumOf ihr
  | tree element ih => exact ih.treeOf le_rfl
  | map key value ihk ihv => exact ihk.mapOf ihv
  | set element ih => exact ih.setOf
  | checkedMap key value ihk ihv => exact ihk.checkedMapOf ihv
  | checkedSet element ih => exact ih.checkedSetOf
  | indexedArray index element ihi ihe => exact ihi.indexedArrayOf ihe
  | recast values format ih =>
      refine (ih.map values).congr fun v p => ?_
      constructor
      · rintro ⟨u, rfl, hu⟩
        rwa [← values.symm_apply_apply u] at hu
      · intro hv
        exact ⟨values.symm v, values.apply_symm_apply v, hv⟩

end Format

/-! ## Whole inputs -/

namespace Decoder.Reads

variable {α : Type} {d : Decoder Bytes α} {n : Nat} {w : Wire α}

/-- An encoding is read as its value, whatever follows it. -/
theorem run_append (h : d.Reads n w) {v : α} {p rest : Bytes} (hlt : (p ++ rest).length < n)
    (hv : w v p) : d.runWithRemainder (p ++ rest) 0 = .ok (v, rest) := by
  have houtcome := h.reads (c := .start .complete (p ++ rest)) rfl hlt hv rfl
  have hresult : d.start .complete (p ++ rest) = .done v rest := by
    rw [start, houtcome]
    rfl
  exact congrArg Result.toExcept hresult

/-- An input begins with an encoding, or it is refused. -/
theorem run_cases (h : d.Reads n w) {bs : Bytes} (hlt : bs.length < n) :
    (∃ v p rest, w v p ∧ bs = p ++ rest) ∨
      ∃ failure : Failure, failure.IsMalformed ∧
        d.runWithRemainder bs 0 = .error failure.report := by
  rcases h.reads_or_fails (c := .start .complete bs) rfl hlt with hreads | ⟨c, failure, hf, houtcome⟩
  · exact .inl hreads
  · have hresult : d.start .complete bs = .failed failure.report := by
      rw [start, houtcome]
      rfl
    exact .inr ⟨failure, hf, congrArg Result.toExcept hresult⟩

end Decoder.Reads

/-- The decoder of a format accepts exactly what the format writes. Over an input that begins with an
    encoding of a value it gives the value and what follows the encoding, and it succeeds in no other
    way. Over any other input it fails, for lack of input or because keys do not ascend. At most one
    encoding of at most one value is at the beginning of an input. The length of an input is a 64-bit
    size. -/
theorem Format.decodes_encodings {α : Type} (f : Format α) (bs : Bytes)
    (hsize : bs.length < UInt64.size) :
    (∀ v rest, f.decoder.runWithRemainder bs 0 = .ok (v, rest) ↔
      ∃ p, f.Encodes v p ∧ bs = p ++ rest) ∧
    ((∀ v p rest, f.Encodes v p → bs ≠ p ++ rest) →
      ∃ failure : Failure, failure.IsMalformed ∧
        f.decoder.runWithRemainder bs 0 = .error failure.report) ∧
    (∀ v p rest v' p' rest', f.Encodes v p → bs = p ++ rest → f.Encodes v' p' → bs = p' ++ rest' →
      p = p' ∧ v = v') := by
  have hrun {v : α} {p rest : Bytes} (hv : f.Encodes v p) (hbs : bs = p ++ rest) :
      f.decoder.runWithRemainder bs 0 = .ok (v, rest) := by
    subst hbs
    exact f.reads.run_append hsize hv
  refine ⟨fun v rest => ⟨fun hok => ?_, ?_⟩, fun hnone => ?_, ?_⟩
  · rcases f.reads.run_cases hsize with ⟨v', p, rest', hv, hbs⟩ | ⟨failure, -, herror⟩
    · rw [hrun hv hbs] at hok
      cases hok
      exact ⟨p, hv, hbs⟩
    · rw [herror] at hok
      cases hok
  · rintro ⟨p, hv, hbs⟩
    exact hrun hv hbs
  · rcases f.reads.run_cases hsize with ⟨v, p, rest, hv, hbs⟩ | hfails
    · exact (hnone v p rest hv hbs).elim
    · exact hfails
  · intro v p rest v' p' rest' hv hbs hv' hbs'
    have hsame := (hrun hv hbs).symm.trans (hrun hv' hbs')
    simp only [Except.ok.injEq, Prod.mk.injEq] at hsame
    obtain ⟨rfl, rfl⟩ := hsame
    exact ⟨List.append_cancel_right (hbs.symm.trans hbs'), rfl⟩

/-! ## Words as keys -/

theorem isStrictWeakOrder_of_toNat {κ : Type} [LT κ] (toNat : κ → Nat)
    (h : ∀ a b, a < b ↔ toNat a < toNat b) : IsStrictWeakOrder κ (· < ·) where
  irrefl a := by rw [h]; omega
  trans a b c := by simp only [h]; omega
  incomp_trans a b c := by simp only [h]; omega

instance isStrictWeakOrderUInt8 : IsStrictWeakOrder UInt8 (· < ·) :=
  isStrictWeakOrder_of_toNat UInt8.toNat fun _ _ => UInt8.lt_iff_toNat_lt

instance isStrictWeakOrderUInt16 : IsStrictWeakOrder UInt16 (· < ·) :=
  isStrictWeakOrder_of_toNat UInt16.toNat fun _ _ => UInt16.lt_iff_toNat_lt

instance isStrictWeakOrderUInt32 : IsStrictWeakOrder UInt32 (· < ·) :=
  isStrictWeakOrder_of_toNat UInt32.toNat fun _ _ => UInt32.lt_iff_toNat_lt

instance isStrictWeakOrderUInt64 : IsStrictWeakOrder UInt64 (· < ·) :=
  isStrictWeakOrder_of_toNat UInt64.toNat fun _ _ => UInt64.lt_iff_toNat_lt

/-! ## An example -/

/-- Trees under small keys, then an array over a range of bytes. -/
def Format.catalogue :
    Format (SortedMap UInt8 (Tree UInt8) × IndexedArray ⟨8, false⟩ (Option UInt16)) :=
  .pair (.map .word8 (.tree .word8))
    (.indexedArray (.recast ⟨UInt8.toBitVec, UInt8.ofBitVec, fun _ => rfl, fun _ => rfl⟩ .word8)
      (.option (.word16 .little)))

/-- Three entries, two of them for the key 7, and three elements for the two indices of a range; one
    byte follows. The first tree for 7 is kept, and the third element is not. -/
theorem catalogue_decodes_encodings :
    ∃ p, Format.catalogue.Encodes
        (⟨[(7, .node 1 [.node 2 [], .node 3 []]), (3, .node 5 [])]⟩,
          ⟨254#8, 255#8, [some 513, none]⟩) p ∧
      [0, 0, 0, 0, 0, 0, 0, 3,
        7, 1, 0, 0, 0, 0, 0, 0, 0, 2, 2, 0, 0, 0, 0, 0, 0, 0, 0, 3, 0, 0, 0, 0, 0, 0, 0, 0,
        3, 5, 0, 0, 0, 0, 0, 0, 0, 0,
        7, 9, 0, 0, 0, 0, 0, 0, 0, 0,
        254, 255, 0, 0, 0, 0, 0, 0, 0, 3, 9, 1, 2, 0, 1, 5, 0,
        42] = p ++ [42] := by
  refine ((Format.catalogue.decodes_encodings _ (by decide)).1 _ _).1 ?_
  rfl

end StreamDecode
