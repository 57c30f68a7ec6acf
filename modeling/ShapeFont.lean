import ShapeFont.Main
import ShapeFont.Bytes.Buffer
import ShapeFont.Proofs.Stream.FrameStack
import ShapeFont.Proofs.Glyph.Dispatch
import ShapeFont.Proofs.Glyph.Skipping
import ShapeFont.Proofs.Glyph.Splicing
import ShapeFont.Proofs.Glyph.Limits
import ShapeFont.Proofs.Font.Truncation
import ShapeFont.Proofs.Glyph.Inlining
import ShapeFont.Proofs.Glyph.Coordinates
import ShapeFont.Proofs.Layout.Faults
import ShapeFont.Proofs.Layout.Atomicity
import ShapeFont.Proofs.Geometry.Exact
import ShapeFont.Proofs.Glyph.Similarity
import ShapeFont.Proofs.Layout.Similarity
import ShapeFont.Proofs.Layout.Rows
import ShapeFont.Proofs.Layout.Alignment
import ShapeFont.Proofs.Layout.Passes
import ShapeFont.Proofs.Layout.Stacking
import ShapeFont.Proofs.Layout.Glyphs
import ShapeFont.Proofs.Glyph.Continuity
import ShapeFont.Proofs.Layout.Continuity
import ShapeFont.Proofs.Number.Sign
import ShapeFont.Proofs.Svg.Replay
import ShapeFont.Proofs.Geometry.Circumcircle
import ShapeFont.Proofs.Geometry.Turns
import ShapeFont.Proofs.Geometry.ThreePoints
import ShapeFont.Proofs.Svg.Arcs
import ShapeFont.Proofs.Reader.Widths
import ShapeFont.Proofs.Reader.Operations
import ShapeFont.Proofs.Font.Header
import ShapeFont.Proofs.Font.Loading
import ShapeFont.Proofs.Font.BigFont
import ShapeFont.Proofs.Font.Outcomes
import ShapeFont.Proofs.Font.Unifont
import ShapeFont.Proofs.Font.Shapes
import ShapeFont.Proofs.Font.Refusals
import ShapeFont.Proofs.Font.Records
import ShapeFont.Proofs.Font.Contents
import ShapeFont.Proofs.Text.Decoding
import ShapeFont.Proofs.Glyph.Cutting
import ShapeFont.Proofs.Glyph.Synonyms
import ShapeFont.Proofs.Stroke.Bounds
import ShapeFont.Proofs.Stroke.Extent
import ShapeFont.Proofs.Cli.Drawing
import ShapeFont.Proofs.Glyph.Resolution
import ShapeFont.Proofs.Glyph.SavedPositions
import ShapeFont.Proofs.Glyph.Arcs
import ShapeFont.Proofs.Layout.Size
import ShapeFont.Proofs.Layout.Spacing
import ShapeFont.Proofs.Reader.Buffer
import ShapeFont.Proofs.Reader.Guarantees
