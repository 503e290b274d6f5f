import BinaryFormat.Proofs.Access.Envelopes
import BinaryFormat.Proofs.Access.Scanning

/-!
# All formats match

Whatever a format is built from, it has matching meanings under engines that match, if
its constants and functions treat matching values alike.
-/

namespace BinaryFormat

variable {q : Setting} {e e' : Engine} {defs : Definitions}

private theorem Codec.matches_reference (concur : e.Matches q e')
    (known : q.Compares → Definitions.Uniform defs) (name : String) :
    (Codec.reference e defs name).Matches q (Codec.reference e' defs name) where
  parse path := concur.parse _ (fun c => known c name) path
  parseInline _ _ := Run.concurs_refused _ _
  size contexts path := concur.size _ (fun c => known c name) contexts path

namespace Format

private theorem eager_casesOf (e : Engine) : ∀ (cases : List (Value × Format)),
    (q.Compares → ∀ entry ∈ cases, entry.1.Eager) →
      q.Compares → ∀ entry ∈ casesOf e defs cases, entry.1.Eager
  | [], _, _ => nofun
  | (_, _) :: rest, h, compares => List.forall_mem_cons.mpr ⟨h compares _ List.mem_cons_self,
      eager_casesOf e rest (fun c entry mem => h c entry (List.mem_cons_of_mem _ mem)) compares⟩

mutual

theorem matches_codec (concur : e.Matches q e') (known : q.Compares → Definitions.Uniform defs) :
    (f : Format) → (q.Compares → f.Uniform) → (f.codec e defs).Matches q (f.codec e' defs)
  | bytes _, h => Codec.matches_bytes concur h
  | greedyBytes, _ => Codec.matches_greedyBytes
  | integer _ signed endian, h => Codec.matches_integer concur h signed endian
  | bitInteger _ signed swapped, h => Codec.matches_bitInteger concur h signed swapped
  | flag, _ => Codec.matches_flag
  | varint maxBits, _ => Codec.matches_varint maxBits
  | zigzag, _ => Codec.matches_zigzag
  | real width endian, _ => Codec.matches_real width endian
  | fixedText _ encoding pad side trim, h =>
      Codec.matches_fixedText concur h encoding pad side trim
  | prefixedText length encoding, h => Codec.matches_prefixedText (p := ⟨length, _⟩)
      (matches_codec concur known length fun d => (h d).2) encoding
  | terminatedText terminators encoding, _ => Codec.matches_terminatedText terminators encoding
  | greedyText encoding, _ => Codec.matches_greedyText encoding
  | named _ of, h => matches_codec concur known of fun d => (h d).2
  | documented _ of, h => matches_codec concur known of fun d => (h d).2
  | struct fields overwrite, h =>
      Codec.matches_struct (matches_parts concur known fields fun d => (h d).2) overwrite
  | sequence items, h =>
      Codec.matches_sequence (matches_parts concur known items fun d => (h d).2)
  | embedded of, h => matches_codec concur known of fun d => (h d).2
  | focused focus items, h =>
      Codec.matches_focused (matches_parts concur known items fun d => (h d).2) focus
  | array _ of discard, h => Codec.matches_array concur (p := ⟨of, _⟩) (fun d => (h d).1)
      (matches_codec concur known of fun d => (h d).2) discard
  | range _ _ of discard, h => Codec.matches_range concur (p := ⟨of, _⟩) (fun d => (h d).1)
      (matches_codec concur known of fun d => (h d).2) discard
  | greedyRange of discard, h => Codec.matches_greedyRange concur (p := ⟨of, _⟩)
      (matches_codec concur known of fun d => (h d).2) discard
  | repeatUntil _ of discard, h => Codec.matches_repeatUntil concur (p := ⟨of, _⟩)
      (fun d => (h d).1) (matches_codec concur known of fun d => (h d).2) discard
  | prefixedArray count of, h => Codec.matches_prefixedArray (r := ⟨count, _⟩) (p := ⟨of, _⟩)
      (matches_codec concur known count fun d => (h d).2.1)
      (matches_codec concur known of fun d => (h d).2.2)
  | select alternatives tagged, h =>
      Codec.matches_select (matches_parts concur known alternatives fun d => (h d).2) tagged
  | union key alternatives, h =>
      Codec.matches_union (matches_parts concur known alternatives fun d => (h d).2) key
  | branch _ yes no, h => Codec.matches_branch concur (fun d => (h d).1)
      (matches_codec concur known yes fun d => (h d).2.1)
      (matches_codec concur known no fun d => (h d).2.2)
  | switch _ cases otherwise, h => Codec.matches_switch concur (fun d => (h d).1.1)
      (eager_casesOf e cases fun d => (h d).1.2)
      (matches_cases concur known cases fun d => (h d).2.1)
      (matches_partIf concur known otherwise fun d => (h d).2.2)
  | pass, _ => Codec.matches_pass
  | terminated, _ => Codec.matches_terminated
  | tell, _ => Codec.matches_tell
  | seek _ whence, h => Codec.matches_seek concur h whence
  | pointer _ of, h => Codec.matches_pointer concur (p := ⟨of, _⟩) (fun d => (h d).1)
      (matches_codec concur known of fun d => (h d).2)
  | peek of, h => Codec.matches_peek (p := ⟨of, _⟩) (matches_codec concur known of fun d => (h d).2)
  | padding _ fill, h => Codec.matches_padding concur h fill
  | padded _ of fill, h => Codec.matches_padded concur (fun d => (h d).1)
      (matches_codec concur known of fun d => (h d).2) fill
  | aligned _ of fill, h => Codec.matches_aligned concur (fun d => (h d).1)
      (matches_codec concur known of fun d => (h d).2) fill
  | prefixed length of inclusive lenient, h => Codec.matches_prefixed (p := ⟨length, _⟩)
      (matches_codec concur known length fun d => (h d).2.1)
      (matches_codec concur known of fun d => (h d).2.2) inclusive lenient
  | fixedSized _ of, h => Codec.matches_fixedSized concur (fun d => (h d).1)
      (matches_codec concur known of fun d => (h d).2)
  | delimited of delimiter, h =>
      Codec.matches_delimited (matches_codec concur known of fun d => (h d).2) delimiter
  | stripped of pad, h =>
      Codec.matches_stripped (matches_codec concur known of fun d => (h d).2) pad
  | rawCopy of, h =>
      Codec.matches_rawCopy (p := ⟨of, _⟩) (matches_codec concur known of fun d => (h d).2)
  | transformed of _ _, h => Codec.matches_transformed concur
      (matches_codec concur known of fun d => (h d).2) fun d => (h d).1
  | recoded of recoding checked, h =>
      Codec.matches_recoded (matches_codec concur known of fun d => (h d).2) recoding checked
  | constant of _, h => Codec.matches_constant concur
      (matches_codec concur known of fun d => (h d).2) fun d => (h d).1
  | computed _, h => Codec.matches_computed concur h
  | rebuild of expr, h =>
      Codec.matches_rebuild (p := ⟨of, _⟩) (matches_codec concur known of fun d => (h d).2) expr
  | fallback of value, h =>
      Codec.matches_fallback (matches_codec concur known of fun d => (h d).2) value
  | check _, h => Codec.matches_check concur h
  | fail message, _ => Codec.matches_explicit message
  | checksum of hash _, h => Codec.matches_checksum concur (p := ⟨of, _⟩)
      (matches_codec concur known of fun d => (h d).2) hash fun d => (h d).1
  | converted of _, h => Codec.matches_converted
      (matches_codec concur known of fun d => (h d).2) fun d => (h d).1
  | convertedIn of _, h => Codec.matches_convertedIn
      (matches_codec concur known of fun d => (h d).2) fun d => (h d).1
  | convertedBy of _ encode, h => Codec.matches_convertedBy concur
      (matches_codec concur known of fun d => (h d).2) (fun d => (h d).1) encode
  | validated of _, h => Codec.matches_validated concur
      (matches_codec concur known of fun d => (h d).2) fun d => (h d).1
  | labelled of labels unlabelled, h => Codec.matches_labelled
      (matches_codec concur known of fun d => (h d).2) labels unlabelled
  | mapped of _, h => Codec.matches_mapped concur
      (matches_codec concur known of fun d => (h d).2) fun d => (h d).1
  | flagSet of flags strict, h =>
      Codec.matches_flagSet (matches_codec concur known of fun d => (h d).2) flags strict
  | lazyStruct fields, h =>
      Codec.matches_lazyStruct concur (matches_parts concur known fields fun d => (h d).2)
  | lazySequence items, h =>
      Codec.matches_lazySequence concur (matches_parts concur known items fun d => (h d).2)
  | lazyArray _ of, h => Codec.matches_lazyArray concur (p := ⟨of, _⟩) (fun d => (h d).1)
      ⟨rfl, matches_codec concur known of fun d => (h d).2, fun d => (h d).2⟩
  | lazyRange _ _ of, h => Codec.matches_lazyRange concur (p := ⟨of, _⟩) (fun d => (h d).1)
      ⟨rfl, matches_codec concur known of fun d => (h d).2, fun d => (h d).2⟩
  | reference name, _ => Codec.matches_reference concur known name

theorem matches_parts (concur : e.Matches q e') (known : q.Compares → Definitions.Uniform defs) :
    (fs : List Format) → (q.Compares → AllOf IsUniform fs) →
      List.Forall₂ (Part.Matches q) (parts e defs fs) (parts e' defs fs)
  | [], _ => .nil
  | f :: rest, h =>
      .cons ⟨rfl, matches_codec concur known f fun d => (h d).1, fun d => (h d).1⟩
        (matches_parts concur known rest fun d => (h d).2)

theorem matches_cases (concur : e.Matches q e') (known : q.Compares → Definitions.Uniform defs) :
    (cases : List (Value × Format)) → (q.Compares → AllCases IsUniform cases) →
      Codec.CasesMatch q (casesOf e defs cases) (casesOf e' defs cases)
  | [], _ => .nil
  | (_, f) :: rest, h =>
      .cons ⟨rfl, rfl, matches_codec concur known f fun d => (h d).1, fun d => (h d).1⟩
        (matches_cases concur known rest fun d => (h d).2)

theorem matches_partIf (concur : e.Matches q e') (known : q.Compares → Definitions.Uniform defs) :
    (otherwise : Option Format) → (q.Compares → AllIf IsUniform otherwise) →
      Option.Rel (Part.Matches q) (partIf e defs otherwise) (partIf e' defs otherwise)
  | none, _ => .none
  | some f, h => .some ⟨rfl, matches_codec concur known f h, h⟩

end

end Format

end BinaryFormat
