import DseMidi.Bytes
import DseMidi.Fault
import DseMidi.Quantity
import DseMidi.Event
import DseMidi.Track
import DseMidi.SideTables
import DseMidi.Cursor
import DseMidi.Dse.Container
import DseMidi.Dse.Instruction
import DseMidi.Dse.Listing
import DseMidi.Dse.Playback
import DseMidi.ChannelAllocation
import DseMidi.Smf.Image
import DseMidi.Conversion
import DseMidi.Decimal.Positional
import DseMidi.Decimal.Shortest
import DseMidi.Json.Value
import DseMidi.Json.Printer
import DseMidi.Dump
import DseMidi.Text.Utf8
import DseMidi.Smf.TimeCode
import DseMidi.Smf.Chunk
import DseMidi.Smf.Wire
import DseMidi.Smf.Sequence
import DseMidi.Files.Path
import DseMidi.Files.Access
import DseMidi.Files.FileSystem
import DseMidi.Command.Options
import DseMidi.FileConversion
import DseMidi.Command.Report
import DseMidi.Command.Convert
import DseMidi.Command.Dump
import DseMidi.Main
import DseMidi.Proofs.Dse.Grammar
import DseMidi.Proofs.Quantity
import DseMidi.Proofs.Smf.Reading
import DseMidi.Proofs.Smf.RoundTrip
import DseMidi.Proofs.Dse.Timeline
import DseMidi.Proofs.Loading
import DseMidi.Proofs.Tempo
import DseMidi.Proofs.Smf.Walk
import DseMidi.Proofs.DeltaTimes
import DseMidi.Proofs.Dse.Duration
import DseMidi.Proofs.Arrangement
import DseMidi.Proofs.Notes
import DseMidi.Proofs.Dse.Locality
import DseMidi.Proofs.Dse.FileLayout
import DseMidi.Proofs.Composition
import DseMidi.Proofs.Extent
import DseMidi.Proofs.Dse.Resumption
import DseMidi.Proofs.ChannelAllocation
import DseMidi.Proofs.Percussion
import DseMidi.Proofs.WrittenChannels
import DseMidi.Proofs.Smf.Stability
import DseMidi.Proofs.Smf.Placement
import DseMidi.Proofs.Smf.Dissection
import DseMidi.Proofs.Smf.Conservation
import DseMidi.Proofs.Smf.TrackOrder
import DseMidi.Proofs.Files.Places
import DseMidi.Proofs.Isolation
import DseMidi.Proofs.Dump
import DseMidi.Proofs.Dse.Adaptation
import DseMidi.Proofs.NumberRanges
import DseMidi.Proofs.Dse.Validation
import DseMidi.Proofs.BendRange
import DseMidi.Proofs.Releases
import DseMidi.Proofs.Accounting
import DseMidi.Proofs.Dse.TimeShift
import DseMidi.Proofs.Quantity.PrefixCode
import DseMidi.Proofs.Quantity.Canonical
import DseMidi.Proofs.DataBytes
import DseMidi.Proofs.Cursor
import DseMidi.Proofs.Dse.Loop
import DseMidi.Proofs.Dse.Texts
import DseMidi.Proofs.Summary
