import BinaryFormat.Format.Meaning
import BinaryFormat.Proofs.Frames.Choices

/-!
# The law of frames for all formats

Whatever a format is built from and however deep formats refer to each other,
parsing leaves the frames alone, and building adds no more than entries of the
innermost frame and patches behind those that are queued already.
-/

namespace BinaryFormat

private theorem Codec.Steady.mono {t u : Traits} {c : Codec} (h : c.Steady u) (within : t.Within u)
    (back : u.guarded ∨ u.single → t.guarded ∨ t.single) : c.Steady t where
  parse path _ := Run.keeps_of_start (h.parse path) Context.Calm.refl fun _ _ calm more =>
    calm.trans (more.mono within)
  build v path base anchored := by
    intro s hs
    have here := (anchored.of_grows hs).mono within back
    obtain ⟨grown, alike⟩ := h.build v path s.context here s (Context.Grows.refl _)
    exact ⟨hs.trans (grown.mono within), alike⟩
  parseInline := h.parseInline
  buildInline input path base inner := by
    intro s hs
    have inner' : s.context.below ≠ [] := by rwa [hs.below]
    obtain ⟨grown, alike⟩ := h.buildInline input path s.context inner' s (Context.Grows.refl _)
    exact ⟨hs.trans (grown.mono within.loose), alike⟩

private theorem Codec.steady_reference {e : Engine} {t : Traits} (he : e.Steady)
    (defs : Definitions)
    (name : String) (none : t.Within ⟨False, False, False, False⟩) :
    (Codec.reference e defs name).Steady t := by
  have within : ∀ u : Traits, t.Within u := fun u =>
    ⟨False.elim ∘ none.guarded, False.elim ∘ none.single, False.elim ∘ none.free,
      False.elim ∘ none.still⟩
  exact Closed.steady ⟨fun _ _ => rfl, fun _ _ => rfl⟩
    (fun path base => he.parse _ path t base (within _))
    fun v path base anchored => he.build _ v path t base (within _) anchored

namespace Format

/-! ## Claims about several components -/

def traitsOf (fs : List Format) : Traits :=
  ⟨AllOf IsGuarded fs, AllOf IsSimple fs, AllOf IsDirect fs, StillOf fs⟩

def traitsOfCases (cases : List (Value × Format)) : Traits :=
  ⟨AllCases IsGuarded cases, AllCases IsSimple cases, AllCases IsDirect cases, StillCases cases⟩

def traitsIf (f : Option Format) : Traits :=
  ⟨AllIf IsGuarded f, AllIf IsSimple f, AllIf IsDirect f, StillIf f⟩

variable {e : Engine} {t : Traits}

theorem within_child {f : Format} {u : Traits} (h : t.Within f.traits)
    (guarded : f.Guarded → u.guarded) (single : f.Single → u.single)
    (free : f.PatchFree → u.free) (still : t.still → u.still) : t.Within u :=
  ⟨guarded ∘ h.guarded, single ∘ h.single, free ∘ h.free, still⟩

/-- Inside a frame of its own nothing is claimed about indices. -/
theorem loose_within_child {f : Format} {u : Traits} (h : t.Within f.traits)
    (guarded : f.Guarded → u.guarded) (single : f.Single → u.single)
    (free : f.PatchFree → u.free) : t.loose.Within u :=
  ⟨guarded ∘ h.guarded, single ∘ h.single, free ∘ h.free, False.elim⟩

theorem computable {f of : Format} {c : Codec} (h : t.Within f.traits) (hc : c.Steady t)
    (some : ¬ f.PatchFree) (guarded : f.Guarded → of.Guarded) (single : f.Single → of.Single)
    (simple : f.Single → of.PatchFree) : Codec.Computable t ⟨of, c⟩ where
  codec := hc
  some := some ∘ h.free
  within := loose_within_child h guarded single (absurd · some)
  simple := simple ∘ h.single

/-- A component whose patches are resolved at once claims that there are none if it claims
that no index is noted. -/
def resolved (t : Traits) : Traits := { t with free := t.free ∨ t.still }

private theorem within_resolved {f of : Format} (h : t.Within f.traits)
    (guarded : f.Guarded → of.Guarded ∧ of.Single) (single : f.Single → of.Single)
    (free : f.PatchFree → of.PatchFree) (still : f.Still → of.Still ∧ of.PatchFree) :
    (resolved t).strict.Within of.traits := by
  refine ⟨fun g => (guarded (h.guarded g)).1, ?_, ?_, fun s => (still (h.still s)).1⟩
  · rintro (g | s)
    · exact (guarded (h.guarded g)).2
    · exact single (h.single s)
  · rintro (f | s)
    · exact free (h.free f)
    · exact (still (h.still s)).2

/-! ## All formats -/

mutual

theorem steady_codec (he : e.Steady) (defs : Definitions) (t : Traits) :
    (f : Format) → t.Within f.traits → (f.codec e defs).Steady t
  | bytes length, _ => Codec.steady_bytes length
  | greedyBytes, _ => Codec.steady_greedyBytes
  | integer width signed endian, _ => Codec.steady_integer width signed endian
  | bitInteger width signed swapped, _ => Codec.steady_bitInteger width signed swapped
  | flag, _ => Codec.steady_flag
  | varint maxBits, _ => Codec.steady_varint maxBits
  | zigzag, _ => Codec.steady_zigzag
  | real width endian, _ => Codec.steady_real width endian
  | fixedText length encoding pad side trim, _ =>
      Codec.steady_fixedText length encoding pad side trim
  | prefixedText length encoding, h => Codec.steady_prefixedText encoding
      (steady_codec he defs t length (within_child h And.right And.right And.right h.still))
  | terminatedText terminators encoding, _ => Codec.steady_terminatedText terminators encoding
  | greedyText encoding, _ => Codec.steady_greedyText encoding
  | named _ of, h =>
      steady_codec he defs t of (within_child h And.right And.right And.right h.still)
  | documented _ of, h =>
      steady_codec he defs t of (within_child h And.right And.right And.right h.still)
  | struct fields overwrite, h => Codec.steady_struct he (steady_parts he defs t.loose fields
      (loose_within_child h And.right And.right And.right)) overwrite
  | sequence items, h => Codec.steady_sequence he (steady_parts he defs t.loose items
      (loose_within_child h And.right And.right And.right))
  | embedded of, h =>
      steady_codec he defs t of (within_child h And.right And.right And.right h.still)
  | focused focus items, h => Codec.steady_focused he focus (steady_parts he defs t.loose items
      (loose_within_child h And.right And.right And.right))
  | array count of discard, h => Codec.steady_array count (p := ⟨of, _⟩) (steady_codec he defs t of
      (within_child h And.right And.right And.right (absurd · h.still))) h.still discard
  | range least most of discard, h => Codec.steady_range least most (p := ⟨of, _⟩)
      (steady_codec he defs t of
        (within_child h And.right And.right And.right (absurd · h.still))) h.still discard
  | greedyRange of discard, h => Codec.steady_greedyRange (p := ⟨of, _⟩)
      (steady_codec he defs t of
        (within_child h And.right And.right And.right (absurd · h.still))) h.still discard
  | repeatUntil last of discard, h => Codec.steady_repeatUntil last (p := ⟨of, _⟩)
      (steady_codec he defs t of
        (within_child h And.right And.right And.right (absurd · h.still))) h.still discard
  | prefixedArray count of, h => Codec.steady_prefixedArray ⟨count, _⟩ (p := ⟨of, _⟩)
      (steady_codec he defs t count
        (within_child h (·.2.1) (·.2.1) (·.2.1) (absurd · h.still)))
      (steady_codec he defs t of
        (within_child h (·.2.2) (·.2.2) (·.2.2) (absurd · h.still))) h.still
  | select alternatives tagged, h => Codec.steady_select (steady_parts he defs t alternatives
      (within_child h And.right And.right And.right h.still)) tagged
  | union key alternatives, h => Codec.steady_union key (steady_parts he defs t.loose alternatives
      (loose_within_child h And.right And.right And.right))
  | branch condition yes no, h => Codec.steady_branch condition
      (steady_codec he defs t yes
        (within_child h (·.2.1) (·.2.1) (·.2.1) fun s => (h.still s).1))
      (steady_codec he defs t no
        (within_child h (·.2.2) (·.2.2) (·.2.2) fun s => (h.still s).2))
  | switch key cases otherwise, h => Codec.steady_switch key fun p hp => hp.elim
      (steady_cases he defs t cases
        (within_child h (·.2.1) (·.2.1) (·.2.1) fun s => (h.still s).1) p)
      (steady_partIf he defs t otherwise
        (within_child h (·.2.2) (·.2.2) (·.2.2) fun s => (h.still s).2) p)
  | pass, _ => Codec.steady_pass
  | terminated, _ => Codec.steady_terminated
  | tell, _ => Codec.steady_tell
  | seek target whence, _ => Codec.steady_seek target whence
  | pointer offset of, h => Codec.steady_pointer offset (p := ⟨of, _⟩) (steady_codec he defs t of
      (within_child h And.right And.right And.right h.still))
  | peek of, h => Codec.steady_peek (p := ⟨of, _⟩) (steady_codec he defs t of
      (within_child h And.right And.right And.right h.still))
  | padding length fill, _ => Codec.steady_padding length fill
  | padded length of fill, h => Codec.steady_padded length (steady_codec he defs t of
      (within_child h And.right And.right And.right h.still)) fill
  | aligned modulus of fill, h => Codec.steady_aligned modulus (steady_codec he defs t of
      (within_child h And.right And.right And.right h.still)) fill
  | prefixed length of inclusive lenient, h => Codec.steady_prefixed ⟨length, _⟩
      (steady_codec he defs t length
        (within_child h (·.2.1) (·.2.1) (·.2.1) fun s => (h.still s).1))
      (steady_codec he defs t of
        (within_child h (·.2.2) (·.2.2) (·.2.2) fun s => (h.still s).2)) inclusive lenient
  | fixedSized length of, h => Codec.steady_fixedSized length (steady_codec he defs t of
      (within_child h And.right And.right And.right h.still))
  | delimited of delimiter, h => Codec.steady_delimited (steady_codec he defs t of
      (within_child h And.right And.right And.right h.still)) delimiter
  | stripped of pad, h => Codec.steady_stripped (steady_codec he defs t of
      (within_child h And.right And.right And.right h.still)) pad
  | rawCopy of, h => Codec.steady_rawCopy (p := ⟨of, _⟩) (steady_codec he defs t of
      (within_child h And.right And.right And.right h.still))
  | transformed of transform extent, h => (Codec.steady_transformed (t := resolved t) he
      (steady_codec he defs (resolved t).strict of
        (within_resolved h (fun g => ⟨g.2, g.1⟩) And.right And.right id)) Or.inr
      transform extent).mono ⟨id, id, Or.inl, id⟩ id
  | recoded of recoding checked, h => (Codec.steady_recoded (t := resolved t) he
      (steady_codec he defs (resolved t).strict of
        (within_resolved h (fun g => ⟨g.2, g.1⟩) And.right And.right id)) Or.inr
      recoding checked).mono ⟨id, id, Or.inl, id⟩ id
  | constant of value, h => Codec.steady_constant (steady_codec he defs t of
      (within_child h And.right And.right And.right h.still)) value
  | computed expr, _ => Codec.steady_computed expr
  | rebuild of expr, h => Codec.steady_rebuild (computable h (steady_codec he defs t of
      (within_child h And.right And.right And.right h.still)) And.left And.right And.right
      And.left) expr
  | fallback of value, h => Codec.steady_fallback (steady_codec he defs t of
      (within_child h And.right And.right And.right h.still)) value
  | check condition, _ => Codec.steady_check condition
  | fail message, _ => Codec.steady_explicit message
  | checksum of hash data, h => Codec.steady_checksum (computable h (steady_codec he defs t of
      (within_child h And.right And.right And.right h.still)) And.left And.right And.right
      And.left) hash data
  | converted of conversion, h => Codec.steady_converted (steady_codec he defs t of
      (within_child h And.right And.right And.right h.still)) conversion
  | convertedIn of conversion, h => Codec.steady_convertedIn (steady_codec he defs t of
      (within_child h And.right And.right And.right h.still)) conversion
  | convertedBy of decode encode, h => Codec.steady_convertedBy (steady_codec he defs t of
      (within_child h And.right And.right And.right h.still)) decode encode
  | validated of rule, h => Codec.steady_validated (steady_codec he defs t of
      (within_child h And.right And.right And.right h.still)) rule
  | labelled of labels unlabelled, h => Codec.steady_labelled (steady_codec he defs t of
      (within_child h And.right And.right And.right h.still)) labels unlabelled
  | mapped of table, h => Codec.steady_mapped (steady_codec he defs t of
      (within_child h And.right And.right And.right h.still)) table
  | flagSet of flags strict, h => Codec.steady_flagSet (steady_codec he defs t of
      (within_child h And.right And.right And.right h.still)) flags strict
  | lazyStruct fields, h => Codec.steady_lazyStruct he (steady_parts he defs t.loose fields
      (loose_within_child h And.right And.right And.right))
  | lazySequence items, h => Codec.steady_lazySequence he (steady_parts he defs t.loose items
      (loose_within_child h And.right And.right And.right))
  | lazyArray count of, h => Codec.steady_lazyArray count (p := ⟨of, _⟩)
      (steady_codec he defs t of
        (within_child h And.right And.right And.right (absurd · h.still))) h.still
  | lazyRange least most of, h => Codec.steady_lazyRange least most (p := ⟨of, _⟩)
      (steady_codec he defs t of
        (within_child h And.right And.right And.right (absurd · h.still))) h.still
  | reference name, h => Codec.steady_reference he defs name
      ⟨h.guarded, h.single, h.free, h.still⟩

theorem steady_parts (he : e.Steady) (defs : Definitions) (t : Traits) :
    (fs : List Format) → t.Within (traitsOf fs) → ∀ p ∈ parts e defs fs, p.codec.Steady t
  | [], _, _, hp => absurd hp List.not_mem_nil
  | f :: rest, h, p, hp => by
      rcases List.mem_cons.mp hp with rfl | hp
      · exact steady_codec he defs t f ⟨fun g => (h.guarded g).1, fun s => (h.single s).1,
          fun n => (h.free n).1, fun s => (h.still s).1⟩
      · exact steady_parts he defs t rest ⟨fun g => (h.guarded g).2, fun s => (h.single s).2,
          fun n => (h.free n).2, fun s => (h.still s).2⟩ p hp

theorem steady_cases (he : e.Steady) (defs : Definitions) (t : Traits) :
    (cases : List (Value × Format)) → t.Within (traitsOfCases cases) →
      ∀ p ∈ (casesOf e defs cases).map Prod.snd, p.codec.Steady t
  | [], _, _, hp => absurd hp List.not_mem_nil
  | (_, f) :: rest, h, p, hp => by
      rcases List.mem_cons.mp hp with rfl | hp
      · exact steady_codec he defs t f ⟨fun g => (h.guarded g).1, fun s => (h.single s).1,
          fun n => (h.free n).1, fun s => (h.still s).1⟩
      · exact steady_cases he defs t rest ⟨fun g => (h.guarded g).2, fun s => (h.single s).2,
          fun n => (h.free n).2, fun s => (h.still s).2⟩ p hp

theorem steady_partIf (he : e.Steady) (defs : Definitions) (t : Traits) :
    (otherwise : Option Format) → t.Within (traitsIf otherwise) →
      ∀ p, partIf e defs otherwise = some p → p.codec.Steady t
  | none, _, _, hp => nomatch hp
  | some f, h, p, hp => by
      cases hp
      exact steady_codec he defs t f ⟨h.guarded, h.single, h.free, h.still⟩

end

end Format

/-! ## All engines -/

namespace Engine

private theorem steady_exhausted : exhausted.Steady where
  parse _ _ _ _ _ := Run.keeps_fail
  build _ _ _ _ _ _ _ := Run.keeps_fail

theorem steady_level (defs : Definitions) (n : Nat) : (level defs n).Steady := by
  induction n with
  | zero => exact steady_exhausted
  | succ n ih =>
      exact ⟨fun f path t base within => (f.steady_codec ih defs t within).parse path base,
        fun f v path t base within anchored =>
          (f.steady_codec ih defs t within).build v path base anchored⟩

end Engine

end BinaryFormat
