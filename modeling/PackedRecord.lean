import PackedRecord.Format.Cache
import PackedRecord.Format.Grammar
import PackedRecord.Main
import PackedRecord.Normal
import PackedRecord.Proofs.Strings
import PackedRecord.Proofs.Floats
import PackedRecord.Proofs.Writing
import PackedRecord.Proofs.Measurement
import PackedRecord.Proofs.Records
import PackedRecord.Proofs.RoundTrip
import PackedRecord.Proofs.Repacking
import PackedRecord.Proofs.SelfDelimiting
import PackedRecord.Proofs.Parsing
import PackedRecord.Proofs.Spelling
import PackedRecord.Proofs.VarintSpellings
import PackedRecord.Proofs.TightFields
import PackedRecord.Proofs.Misfits
import PackedRecord.Proofs.Leniency
import PackedRecord.Proofs.Composition
import PackedRecord.Proofs.CacheHistory
import PackedRecord.Proofs.ErrorPhases
import PackedRecord.Proofs.ExitStatus
import PackedRecord.Proofs.JsonStability
import PackedRecord.Proofs.JsonNumbers
import PackedRecord.Proofs.JsonArguments
import PackedRecord.Proofs.DecoderHistory
import PackedRecord.Proofs.EncoderHistory
import PackedRecord.Proofs.ShortestFloats
import PackedRecord.Proofs.HalfRounding
import PackedRecord.Proofs.HalfByExponent
import PackedRecord.Proofs.Prediction
import PackedRecord.Proofs.Markers
import PackedRecord.Proofs.ParsingFaults
import PackedRecord.Proofs.IllFormedParts
import PackedRecord.Proofs.StringBuffers
import PackedRecord.Proofs.IntegerRanges
import PackedRecord.Proofs.BitPlaces
import PackedRecord.Proofs.CommandDocuments
import PackedRecord.Proofs.FilePlaces
import PackedRecord.Proofs.FileSystems
import PackedRecord.Proofs.PackedFiles
import PackedRecord.Proofs.SurplusItems
