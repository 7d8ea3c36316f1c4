import LiveSvg.Cell.Session
import LiveSvg.CommandLine.Commands
import LiveSvg.Display
import LiveSvg.Document
import LiveSvg.Download
import LiveSvg.Main
import LiveSvg.Proofs.Animations
import LiveSvg.Proofs.Answering
import LiveSvg.Proofs.Busy
import LiveSvg.Proofs.Compiling
import LiveSvg.Proofs.Declarations
import LiveSvg.Proofs.Escaping
import LiveSvg.Proofs.Fresh
import LiveSvg.Proofs.Grammar
import LiveSvg.Proofs.Handles
import LiveSvg.Proofs.Harvest
import LiveSvg.Proofs.Indentation
import LiveSvg.Proofs.Isolation
import LiveSvg.Proofs.Keeping
import LiveSvg.Proofs.LastTold
import LiveSvg.Proofs.Listening
import LiveSvg.Proofs.Lossless
import LiveSvg.Proofs.Merging
import LiveSvg.Proofs.Natural
import LiveSvg.Proofs.Padding
import LiveSvg.Proofs.Ranges
import LiveSvg.Proofs.Refusals
import LiveSvg.Proofs.Release
import LiveSvg.Proofs.Replacing
import LiveSvg.Proofs.Restoring
import LiveSvg.Proofs.Scales
import LiveSvg.Proofs.Scenes
import LiveSvg.Proofs.Sharing
import LiveSvg.Proofs.Showable
import LiveSvg.Proofs.Sizing
import LiveSvg.Proofs.Starting
import LiveSvg.Proofs.Unchanged
import LiveSvg.Proofs.Updates
import LiveSvg.Script.Alone
import LiveSvg.World.Step
