import WireLayout.Keyed
import WireLayout.Position
import WireLayout.Bytes
import WireLayout.Encoding
import WireLayout.Fault
import WireLayout.Cursor
import WireLayout.Float.Format
import WireLayout.Float.Shortest
import WireLayout.Value
import WireLayout.Options
import WireLayout.Number
import WireLayout.Schema
import WireLayout.Schema.Text
import WireLayout.Schema.Layout
import WireLayout.Builder
import WireLayout.Registry
import WireLayout.Registry.Standard
import WireLayout.Scope
import WireLayout.Walk
import WireLayout.Region
import WireLayout.Elements
import WireLayout.Text
import WireLayout.Enumeration
import WireLayout.Body
import WireLayout.Sibling
import WireLayout.Transform
import WireLayout.Extension
import WireLayout.Codec
import WireLayout.Proofs.Site
import WireLayout.Proofs.Reading
import WireLayout.Proofs.Approximation
import WireLayout.Proofs.Input
import WireLayout.Proofs.SelfDelimiting
import WireLayout.Proofs.Relocation
import WireLayout.Proofs.BlockPaths
import WireLayout.Proofs.Output
import WireLayout.Proofs.Placement
import WireLayout.Proofs.Scopeless
import WireLayout.Proofs.Patching
import WireLayout.Proofs.ContextFree
import WireLayout.Proofs.Integers
import WireLayout.Proofs.Padding
import WireLayout.Proofs.Contents
import WireLayout.Proofs.Blocks
import WireLayout.Proofs.Appending
import WireLayout.Proofs.Reversal
import WireLayout.Proofs.Canonical
import WireLayout.Proofs.Fitting
import WireLayout.Proofs.RoundTrip
import WireLayout.Proofs.Writing
import WireLayout.Proofs.Window
import WireLayout.Proofs.Parts
import WireLayout.Proofs.Tandem
import WireLayout.Proofs.Counting
import WireLayout.Proofs.LinkedCount
import WireLayout.Proofs.StoredCount
import WireLayout.Proofs.ParsedCount
import WireLayout.Proofs.Moving
import WireLayout.Proofs.Leaving
import WireLayout.Proofs.ForwardDepend
import WireLayout.Proofs.Registration
import WireLayout.Proofs.Aliases
import WireLayout.Proofs.Shorthand
import WireLayout.Proofs.Resolution
import WireLayout.Proofs.Spelling
import WireLayout.Proofs.Respelling
import WireLayout.Proofs.Unplaced
import WireLayout.Proofs.UnionExit
import WireLayout.Proofs.Faults
import WireLayout.Proofs.Refusals
import WireLayout.Proofs.Cycles
import WireLayout.Proofs.Filling
import WireLayout.Proofs.Lengths
import WireLayout.Proofs.ByteOrders
import WireLayout.Proofs.Zeros
import WireLayout.Proofs.Omission
import WireLayout.Proofs.NullPadding
import WireLayout.Proofs.FixedCount
import WireLayout.Proofs.RegistrationOrder
import WireLayout.Proofs.NumberRuns
import WireLayout.Proofs.Footprints
import WireLayout.Proofs.Reordering
import WireLayout.Proofs.PairOrder
import WireLayout.Proofs.Overlay
import WireLayout.Proofs.Staying
import WireLayout.Proofs.TopField
import WireLayout.Proofs.CutText
import WireLayout.Proofs.DependentCount
import WireLayout.Proofs.Merging
import WireLayout.Proofs.Alike
import WireLayout.Proofs.Stretch
import WireLayout.Proofs.DeadFields
import WireLayout.Proofs.PositionNames
import WireLayout.Proofs.Concatenation
import WireLayout.Proofs.CallStyles
import WireLayout.Proofs.CountPrefix
import WireLayout.Proofs.ReadingToEnd
import WireLayout.Proofs.ImpliedCount
import WireLayout.Proofs.CursorRuns
import WireLayout.Proofs.Residues
import WireLayout.Proofs.Rewriting
import WireLayout.Proofs.Discerning
import WireLayout.Proofs.CanonicalText
