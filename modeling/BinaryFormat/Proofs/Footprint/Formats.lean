import BinaryFormat.Proofs.Agreement
import BinaryFormat.Proofs.Footprint.Codecs

/-!
# The footprints of formats

Every format that only goes forward touches nothing in front of where its build
starts, whatever it is built from and however deep formats refer to each other.
-/

namespace BinaryFormat

/-- Whatever formats refer to goes forward. -/
def Definitions.Onward (defs : Definitions) : Prop := ∀ entry ∈ defs, entry.2.Onward

namespace Format

variable {c : Claims} {e : Engine} {defs : Definitions}

/-- All of the formats live up to the claims. -/
structure MeetsAll (c : Claims) (fs : List Format) : Prop where
  onward : AllOf IsOnward fs
  tight : c.tight → AllOf IsTight fs
  simple : c.simple → AllOf IsSimple fs

private theorem MeetsAll.first {f : Format} {rest : List Format} (h : MeetsAll c (f :: rest)) :
    f.Meets c := ⟨h.onward.1, fun t => (h.tight t).1, fun s => (h.simple s).1⟩

private theorem MeetsAll.others {f : Format} {rest : List Format} (h : MeetsAll c (f :: rest)) :
    MeetsAll c rest := ⟨h.onward.2, fun t => (h.tight t).2, fun s => (h.simple s).2⟩

private theorem Meets.child {f of : Format} (h : f.Meets c) (onward : f.Onward → of.Onward)
    (tight : f.Tight → of.Tight) (simple : f.Single → of.Single) : of.Meets c :=
  ⟨onward h.onward, tight ∘ h.tight, simple ∘ h.simple⟩

private theorem Meets.children {f : Format} {fs : List Format} (h : f.Meets c)
    (onward : f.Onward → AllOf IsOnward fs) (tight : f.Tight → AllOf IsTight fs)
    (simple : f.Single → AllOf IsSimple fs) : MeetsAll c fs :=
  ⟨onward h.onward, tight ∘ h.tight, simple ∘ h.simple⟩

private theorem meets_strict {of : Format} (onward : of.Onward) (simple : of.Single) :
    of.Meets ⟨False, True⟩ := ⟨onward, False.elim, fun _ => simple⟩

private theorem Meets.suits {f of : Format} (h : f.Meets c) (onward : f.Onward → of.Onward)
    (tight : f.Tight → of.Tight) (simple : f.Single → of.PatchFree) (d : Deferred)
    (same : d.field = of) : d.Suits c := by
  subst same
  exact ⟨onward h.onward, tight ∘ h.tight, simple ∘ h.simple⟩

theorem steady_of (he : e.Steady) (defs : Definitions) (f : Format) :
    (f.codec e defs).Steady .unclaimed :=
  steady_codec he defs .unclaimed f (Traits.unclaimed_within _)

private theorem steady_of_patchFree (he : e.Steady) (defs : Definitions) {f : Format}
    (free : f.PatchFree) : (f.codec e defs).Steady ⟨False, False, True, False⟩ :=
  steady_codec he defs _ f ⟨False.elim, False.elim, fun _ => free, False.elim⟩

private theorem confined_reference (confines : e.Confines) (onward : defs.Onward) (name : String)
    (h : (reference name).Meets c) : (Codec.reference e defs name).Confined c := by
  refine Codec.confined_of (fun _ _ => rfl) fun v path => confines c _ v path ⟨?_, ?_, ?_⟩
  · cases found : Record.get? defs name with
    | none => exact trivial
    | some f => exact onward _ (Record.mem_of_get?_eq_some found)
  · exact fun tight => (h.tight tight).elim
  · exact fun simple => (h.simple simple).elim

mutual

theorem confined_codec (he : e.Steady) (confines : e.Confines) (onward : defs.Onward)
    (c : Claims) : (f : Format) → f.Meets c → (f.codec e defs).Confined c
  | bytes length, _ => Codec.confined_bytes length
  | greedyBytes, _ => Codec.confined_greedyBytes
  | integer width signed endian, _ => Codec.confined_integer width signed endian
  | bitInteger width signed swapped, _ => Codec.confined_bitInteger width signed swapped
  | flag, _ => Codec.confined_flag
  | varint maxBits, _ => Codec.confined_varint maxBits
  | zigzag, _ => Codec.confined_zigzag
  | real width endian, _ => Codec.confined_real width endian
  | fixedText length encoding pad side trim, _ =>
      Codec.confined_fixedText length encoding pad side trim
  | prefixedText length encoding, h => Codec.confined_prefixedText (p := ⟨length, _⟩)
      (confined_codec he confines onward c length (h.child And.right And.right And.right)) encoding
  | terminatedText terminators encoding, _ => Codec.confined_terminatedText terminators encoding
  | greedyText encoding, _ => Codec.confined_greedyText encoding
  | named _ of, h =>
      confined_codec he confines onward c of (h.child And.right And.right And.right)
  | documented _ of, h =>
      confined_codec he confines onward c of (h.child And.right And.right And.right)
  | struct fields overwrite, h => Codec.confined_struct he confines
      (confined_parts he confines onward c fields (h.children And.right And.right And.right))
      overwrite
  | sequence items, h => Codec.confined_sequence he confines
      (confined_parts he confines onward c items (h.children And.right And.right And.right))
  | embedded of, h =>
      confined_codec he confines onward c of (h.child And.right And.right And.right)
  | focused focus items, h => Codec.confined_focused he confines
      (confined_parts he confines onward c items (h.children And.right And.right And.right)) focus
  | array count of discard, h => Codec.confined_array (p := ⟨of, _⟩)
      (confined_codec he confines onward c of (h.child And.right And.right And.right)) count discard
  | range least most of discard, h => Codec.confined_range (p := ⟨of, _⟩)
      (confined_codec he confines onward c of (h.child And.right And.right And.right)) least most
      discard
  | greedyRange of discard, h => Codec.confined_greedyRange (p := ⟨of, _⟩)
      (confined_codec he confines onward c of (h.child And.right And.right And.right)) discard
  | repeatUntil last of discard, h => Codec.confined_repeatUntil (p := ⟨of, _⟩)
      (confined_codec he confines onward c of (h.child And.right And.right And.right)) last discard
  | prefixedArray count of, h => Codec.confined_prefixedArray (q := ⟨count, _⟩) (p := ⟨of, _⟩)
      (confined_codec he confines onward c count (h.child (·.2.1) (·.2.1) (·.2.1)))
      (confined_codec he confines onward c of (h.child (·.2.2) (·.2.2) (·.2.2)))
  | select alternatives tagged, h => Codec.confined_select
      (steady_parts he defs .unclaimed alternatives (Traits.unclaimed_within _))
      (confined_parts he confines onward c alternatives
        (h.children And.right And.right And.right)) tagged
  | union key alternatives, h => Codec.confined_union
      (confined_parts he confines onward c alternatives (h.children And.right And.right And.right))
      (by
        rintro tight rfl
        exact (h.tight tight).1)
  | branch condition yes no, h => Codec.confined_branch
      (confined_codec he confines onward c yes (h.child (·.2.1) (·.2.1) (·.2.1)))
      (confined_codec he confines onward c no (h.child (·.2.2) (·.2.2) (·.2.2))) condition
  | switch key cases otherwise, h => Codec.confined_switch (fun p mem => mem.elim
      (confined_cases he confines onward c cases h.onward.2.1 (fun t => (h.tight t).2.1)
        (fun s => (h.simple s).2.1) p)
      (confined_partIf he confines onward c otherwise h.onward.2.2 (fun t => (h.tight t).2.2)
        (fun s => (h.simple s).2.2) p)) key
  | pass, _ => Codec.confined_pass
  | terminated, _ => Codec.confined_terminated
  | tell, _ => Codec.confined_tellCodec
  | seek _ _, h => h.onward.elim
  | pointer _ _, h => h.onward.1.elim
  | peek of, _ => Codec.confined_peek ⟨of, _⟩
  | padding length fill, _ => Codec.confined_padding length fill
  | padded length of fill, h => Codec.confined_padded
      (confined_codec he confines onward c of (h.child And.right And.right And.right)) length fill
  | aligned modulus of fill, h => Codec.confined_aligned
      (confined_codec he confines onward c of (h.child And.right And.right And.right)) modulus fill
  | prefixed length of inclusive lenient, h => Codec.confined_prefixed (q := ⟨length, _⟩)
      (steady_of_patchFree he defs h.onward.1)
      (confined_codec he confines onward c length (h.child (·.2.1) (·.2.1) (·.2.1)))
      (confined_codec he confines onward c of (h.child (·.2.2) (·.2.2) (·.2.2)))
  | fixedSized length of, h => Codec.confined_fixedSized
      (confined_codec he confines onward c of (h.child And.right And.right And.right)) length
  | delimited of delimiter, h => Codec.confined_delimited
      (confined_codec he confines onward c of (h.child And.right And.right And.right)) delimiter
  | stripped of pad, h => Codec.confined_stripped
      (confined_codec he confines onward c of (h.child And.right And.right And.right)) pad
  | rawCopy of, h => Codec.confined_rawCopy (p := ⟨of, _⟩) (steady_of he defs of)
      (confined_codec he confines onward c of (h.child And.right And.right And.right))
  | transformed of transform extent, h => Codec.confined_transformed he confines
      (confined_codec he confines onward ⟨False, True⟩ of
        (meets_strict h.onward.2 h.onward.1)) transform extent
  | recoded of recoding checked, h => Codec.confined_recoded he confines
      (confined_codec he confines onward ⟨False, True⟩ of
        (meets_strict h.onward.2 h.onward.1)) recoding checked
  | constant of value, h => Codec.confined_constant
      (confined_codec he confines onward c of (h.child And.right And.right And.right)) value
  | computed expr, _ => Codec.confined_computed expr
  | rebuild of expr, h => Codec.confined_rebuild (p := ⟨of, _⟩)
      (confined_codec he confines onward c of (h.child And.right And.right And.right))
      (h.suits And.right And.right And.left) expr
  | fallback of value, h => Codec.confined_fallback
      (confined_codec he confines onward c of (h.child And.right And.right And.right)) value
  | check condition, _ => Codec.confined_check condition
  | fail message, _ => Codec.confined_explicit message
  | checksum of hash data, h => Codec.confined_checksum (p := ⟨of, _⟩)
      (confined_codec he confines onward c of (h.child And.right And.right And.right))
      (h.suits And.right And.right And.left) hash data
  | converted of conversion, h => Codec.confined_converted
      (confined_codec he confines onward c of (h.child And.right And.right And.right)) conversion
  | convertedIn of conversion, h => Codec.confined_convertedIn
      (confined_codec he confines onward c of (h.child And.right And.right And.right)) conversion
  | convertedBy of decode encode, h => Codec.confined_convertedBy
      (confined_codec he confines onward c of (h.child And.right And.right And.right)) decode encode
  | validated of rule, h => Codec.confined_validated
      (confined_codec he confines onward c of (h.child And.right And.right And.right)) rule
  | labelled of labels unlabelled, h => Codec.confined_labelled
      (confined_codec he confines onward c of (h.child And.right And.right And.right)) labels
      unlabelled
  | mapped of table, h => Codec.confined_mapped
      (confined_codec he confines onward c of (h.child And.right And.right And.right)) table
  | flagSet of flags strict, h => Codec.confined_flagSet
      (confined_codec he confines onward c of (h.child And.right And.right And.right)) flags strict
  | lazyStruct fields, h => Codec.confined_of (fun _ _ => rfl) (Codec.confined_struct he confines
      (confined_parts he confines onward c fields (h.children And.right And.right And.right))
      false).build
  | lazySequence items, h => Codec.confined_of (fun _ _ => rfl) (Codec.confined_sequence he confines
      (confined_parts he confines onward c items (h.children And.right And.right And.right))).build
  | lazyArray count of, h => Codec.confined_of (fun _ _ => rfl) (Codec.confined_array (p := ⟨of, _⟩)
      (confined_codec he confines onward c of (h.child And.right And.right And.right)) count
      false).build
  | lazyRange least most of, h => Codec.confined_of (fun _ _ => rfl)
      (Codec.confined_range (p := ⟨of, _⟩)
        (confined_codec he confines onward c of (h.child And.right And.right And.right)) least most
        false).build
  | reference name, h => confined_reference confines onward name h

theorem confined_parts (he : e.Steady) (confines : e.Confines) (onward : defs.Onward)
    (c : Claims) : (fs : List Format) → MeetsAll c fs → ∀ p ∈ parts e defs fs, p.codec.Confined c
  | [], _, _, mem => absurd mem List.not_mem_nil
  | f :: rest, h, p, mem => by
      rcases List.mem_cons.mp mem with rfl | mem
      · exact confined_codec he confines onward c f h.first
      · exact confined_parts he confines onward c rest h.others p mem

theorem confined_cases (he : e.Steady) (confines : e.Confines) (onward : defs.Onward)
    (c : Claims) : (cases : List (Value × Format)) → AllCases IsOnward cases →
      (c.tight → AllCases IsTight cases) → (c.simple → AllCases IsSimple cases) →
      ∀ p ∈ (casesOf e defs cases).map Prod.snd, p.codec.Confined c
  | [], _, _, _, _, mem => absurd mem List.not_mem_nil
  | (_, f) :: rest, o, t, s, p, mem => by
      rcases List.mem_cons.mp mem with rfl | mem
      · exact confined_codec he confines onward c f
          ⟨o.1, fun claim => (t claim).1, fun claim => (s claim).1⟩
      · exact confined_cases he confines onward c rest o.2 (fun claim => (t claim).2)
          (fun claim => (s claim).2) p mem

theorem confined_partIf (he : e.Steady) (confines : e.Confines) (onward : defs.Onward)
    (c : Claims) : (otherwise : Option Format) → AllIf IsOnward otherwise →
      (c.tight → AllIf IsTight otherwise) → (c.simple → AllIf IsSimple otherwise) →
      ∀ p, partIf e defs otherwise = some p → p.codec.Confined c
  | none, _, _, _, _, found => nomatch found
  | some f, o, t, s, p, found => by
      cases found
      exact confined_codec he confines onward c f ⟨o, t, s⟩

end

end Format

theorem Engine.confines_level {defs : Definitions} (onward : defs.Onward) (n : Nat) :
    (level defs n).Confines := by
  induction n with
  | zero => exact fun _ _ _ _ _ => Run.confined_fail
  | succ n ih =>
      exact fun c f v path meets =>
        (f.confined_codec (steady_level defs n) ih onward c meets).build v path

end BinaryFormat
