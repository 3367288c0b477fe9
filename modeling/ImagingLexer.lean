import ImagingLexer.Cursor.Family
import ImagingLexer.TokenReader.Family
import ImagingLexer.Proofs.MaximalMunch
import ImagingLexer.Proofs.Tiling
import ImagingLexer.Proofs.LineFeed
import ImagingLexer.Proofs.Blanking
import ImagingLexer.Proofs.Isolation
import ImagingLexer.Proofs.Restart
import ImagingLexer.Proofs.Continuation
import ImagingLexer.Proofs.Locations
import ImagingLexer.Proofs.Arrangement
import ImagingLexer.Proofs.LineEndings
import ImagingLexer.Proofs.Cursor.Run
import ImagingLexer.Proofs.Cursor.Independence
import ImagingLexer.Proofs.TokenReader.Simulation
import ImagingLexer.Proofs.Records
import ImagingLexer.Proofs.Binary32.Nearest
import ImagingLexer.Proofs.Decimals
import ImagingLexer.Proofs.Integers
import ImagingLexer.Proofs.Strings
import ImagingLexer.Proofs.Rescan
import ImagingLexer.Proofs.Coherence
import ImagingLexer.Proofs.Characters
import ImagingLexer.Proofs.Diagnostics
import ImagingLexer.Proofs.Spelling
import ImagingLexer.Proofs.Breaks
import ImagingLexer.Proofs.Lines
import ImagingLexer.Proofs.Progress
