import MessageMachine.Value.Basic

/-!
# Heap settings

The sizes that a heap is created with, and which of them are accepted.
-/

namespace MessageMachine

namespace Heap

/-- How large a heap may grow. -/
structure Settings where
  /-- The capacity of one segment in words, headers included; also the largest object. -/
  segmentWords : Nat := 65536
  /-- How many segments the root pool may have. -/
  maxRootSegments : Nat := 16
  /-- How many segments the ephemeral pool may have. -/
  maxEphemeralSegments : Nat := 1024
  /-- The ephemeral segment count at which the first collection is due. -/
  gcThresholdSegments : Nat := 8
  deriving DecidableEq, Repr, Inhabited

/-- What can be wrong with heap settings. -/
inductive Settings.Defect where
  | segmentTooSmall
  | segmentTooLarge
  | noSegments
  | tooManySegments
  | thresholdTooSmall
  | thresholdTooLarge
  deriving DecidableEq, Repr, Inhabited

namespace Settings

/-- What is told about a defect. -/
def Defect.message : Defect → String
  | segmentTooSmall => "segment_words must be at least 64"
  | segmentTooLarge => "segment_words must fit in 32 bits"
  | noSegments => "segment limits must be > 0"
  | tooManySegments => "segment limit exceeds handle range"
  | thresholdTooSmall => "gc_threshold_segments must be at least 2"
  | thresholdTooLarge => "gc_threshold_segments must not exceed max_ephemeral_segments"

/-- The first defect of the settings, if any. -/
def defect? (s : Settings) : Option Defect :=
  if s.segmentWords < 64 then some .segmentTooSmall
  else if s.segmentWords > 1 <<< 32 - 1 then some .segmentTooLarge
  else if s.maxRootSegments = 0 ∨ s.maxEphemeralSegments = 0 then some .noSegments
  else if s.maxRootSegments > Handle.maxSegment + 1 ∨
      s.maxEphemeralSegments > Handle.maxSegment + 1 then some .tooManySegments
  else if s.gcThresholdSegments < 2 then some .thresholdTooSmall
  else if s.gcThresholdSegments > s.maxEphemeralSegments then some .thresholdTooLarge
  else none

end Settings

end Heap

end MessageMachine
